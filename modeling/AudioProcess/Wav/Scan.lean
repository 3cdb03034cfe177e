import AudioProcess.Wav.Model

/-!
# What `read_header` finds

`read_header` scans the first 256 bytes for its tags; it does not follow the chunk sizes.

* `FormatChunk.ofBytes_inj`: a struct and its bytes;
* `stringCmp_eq`, `searchID_eq`: the first occurrence of a tag; `locate_eq`: the pointer there;
* **`readHeader_of_tags`**: with its tags in order it reads the three structs where they are;
  `readHeader_cases`, `tags_of_readHeader`: and it accepts nothing else.
-/

namespace AudioProcess

open Bytes

variable {pat buf s : List UInt8} {lo k n : ℕ}

/-! ## Structs and their bytes -/

theorem int32Bytes_int32At (h : 4 ≤ s.length) : int32Bytes (int32At s) = s.take 4 := by
  have hlt := leNat_lt (s.take 4)
  rw [List.length_take_of_le h] at hlt
  rw [int32Bytes, int32At, Int32.toUInt32_ofNat', UInt32.toNat_ofNat_of_lt' hlt, natLE_leNat_take h]

@[simp] theorem int32At_int32Bytes (x : Int32) : int32At (int32Bytes x) = x := by
  have hx : leNat ((int32Bytes x).take 4) = x.toUInt32.toNat := leNat_natLE (k := 4) x.toUInt32.toNat_lt
  rw [int32At, hx]
  exact congrArg UInt32.toInt32 (UInt32.ofNat_toNat (x := x.toUInt32))

@[simp] theorem int16At_int16Bytes (x : Int16) : int16At (int16Bytes x) = x := by
  have hx : leNat ((int16Bytes x).take 2) = x.toUInt16.toNat := leNat_natLE (k := 2) x.toUInt16.toNat_lt
  rw [int16At, hx]
  exact congrArg UInt16.toInt16 (UInt16.ofNat_toNat (x := x.toUInt16))

theorem int16Bytes_int16At (h : 2 ≤ s.length) : int16Bytes (int16At s) = s.take 2 := by
  have hlt := leNat_lt (s.take 2)
  rw [List.length_take_of_le h] at hlt
  rw [int16Bytes, int16At, Int16.toUInt16_ofNat', UInt16.toNat_ofNat_of_lt' hlt, natLE_leNat_take h]

theorem FourCC.bytes_ofBytes (h : 4 ≤ s.length) : (FourCC.ofBytes s).bytes = s.take 4 := by
  match s, h with
  | _ :: _ :: _ :: _ :: _, _ => rfl

theorem FormatChunk.bytes_ofBytes (h : sizeofFormat ≤ s.length) :
    (FormatChunk.ofBytes s).bytes = s.take sizeofFormat := by
  unfold sizeofFormat at *
  have hdrop : ∀ k, k + 4 ≤ 24 → 4 ≤ (s.drop k).length := fun k hk => by
    rw [List.length_drop]
    omega
  have hdrop' : ∀ k, k + 2 ≤ 24 → 2 ≤ (s.drop k).length := fun k hk => by
    rw [List.length_drop]
    omega
  have hsplit : s.take 24 = s.take 4 ++ (s.drop 4).take 4 ++ (s.drop 8).take 2 ++ (s.drop 10).take 2 ++
      (s.drop 12).take 4 ++ (s.drop 16).take 4 ++ (s.drop 20).take 2 ++ (s.drop 22).take 2 := by
    simp only [← List.take_add]
  rw [hsplit, bytes, ofBytes, FourCC.bytes_ofBytes (by omega), int32Bytes_int32At (hdrop 4 (by decide)),
    int16Bytes_int16At (hdrop' 8 (by decide)), int16Bytes_int16At (hdrop' 10 (by decide)),
    int32Bytes_int32At (hdrop 12 (by decide)), int32Bytes_int32At (hdrop 16 (by decide)),
    int16Bytes_int16At (hdrop' 20 (by decide)), int16Bytes_int16At (hdrop' 22 (by decide))]

theorem RiffChunk.bytes_ofBytes (h : sizeofRiff ≤ s.length) :
    (RiffChunk.ofBytes s).bytes = s.take sizeofRiff := by
  unfold sizeofRiff at *
  have hdrop : ∀ k, k + 4 ≤ 12 → 4 ≤ (s.drop k).length := fun k hk => by
    rw [List.length_drop]
    omega
  have hsplit : s.take 12 = s.take 4 ++ (s.drop 4).take 4 ++ (s.drop 8).take 4 := by
    simp only [← List.take_add]
  rw [hsplit, bytes, ofBytes, FourCC.bytes_ofBytes (by omega), int32Bytes_int32At (hdrop 4 (by decide)),
    FourCC.bytes_ofBytes (hdrop 8 (by decide))]

theorem DataChunk.bytes_ofBytes (h : sizeofData ≤ s.length) :
    (DataChunk.ofBytes s).bytes = s.take sizeofData := by
  unfold sizeofData at *
  have hdrop : 4 ≤ (s.drop 4).length := by
    rw [List.length_drop]
    omega
  have hsplit : s.take 8 = s.take 4 ++ (s.drop 4).take 4 := by
    simp only [← List.take_add]
  rw [hsplit, bytes, ofBytes, FourCC.bytes_ofBytes (by omega), int32Bytes_int32At hdrop]

theorem FourCC.ofBytes_take {k : ℕ} (hk : 4 ≤ k) : FourCC.ofBytes (s.take k) = FourCC.ofBytes s := by
  have hget : ∀ i < 4, (s.take k).getD i 0 = s.getD i 0 := fun i hi => by
    rw [List.getD_eq_getElem?_getD, List.getElem?_take_of_lt (by omega), ← List.getD_eq_getElem?_getD]
  unfold ofBytes
  rw [hget 0 (by decide), hget 1 (by decide), hget 2 (by decide), hget 3 (by decide)]

theorem take_drop_take {n d k : ℕ} (h : d + n ≤ k) : ((s.take k).drop d).take n = (s.drop d).take n := by
  rw [List.drop_take, List.take_take, min_eq_left (by omega)]

theorem FormatChunk.ofBytes_take : FormatChunk.ofBytes (s.take sizeofFormat) = FormatChunk.ofBytes s := by
  unfold sizeofFormat ofBytes int32At int16At
  rw [FourCC.ofBytes_take (by decide), take_drop_take (by decide), take_drop_take (by decide),
    take_drop_take (by decide), take_drop_take (by decide), take_drop_take (by decide), take_drop_take (by decide),
    take_drop_take (by decide)]

theorem DataChunk.ofBytes_take : DataChunk.ofBytes (s.take sizeofData) = DataChunk.ofBytes s := by
  unfold sizeofData ofBytes int32At
  rw [FourCC.ofBytes_take (by decide), take_drop_take (by decide)]

/-- The struct and its 24 bytes determine each other. -/
theorem FormatChunk.ofBytes_inj {s' : List UInt8} (h : sizeofFormat ≤ s.length)
    (h' : sizeofFormat ≤ s'.length) :
    FormatChunk.ofBytes s = FormatChunk.ofBytes s' ↔ s.take sizeofFormat = s'.take sizeofFormat := by
  constructor
  · intro heq
    rw [← bytes_ofBytes h, ← bytes_ofBytes h', heq]
  · intro heq
    rw [← ofBytes_take, heq, ofBytes_take]

/-- A struct is read back from its bytes. -/
theorem RiffChunk.ofBytes_bytes (r : RiffChunk) (rest : List UInt8) : RiffChunk.ofBytes (r.bytes ++ rest) = r := by
  have hsize : int32At ((r.bytes ++ rest).drop 4) = int32At (int32Bytes r.size) := rfl
  rw [ofBytes, hsize, int32At_int32Bytes]
  rfl

theorem FormatChunk.ofBytes_bytes (f : FormatChunk) (rest : List UInt8) :
    FormatChunk.ofBytes (f.bytes ++ rest) = f := by
  have hsize : int32At ((f.bytes ++ rest).drop 4) = int32At (int32Bytes f.size) := rfl
  have hformat : int16At ((f.bytes ++ rest).drop 8) = int16At (int16Bytes f.format) := rfl
  have hchannels : int16At ((f.bytes ++ rest).drop 10) = int16At (int16Bytes f.channels) := rfl
  have hrate : int32At ((f.bytes ++ rest).drop 12) = int32At (int32Bytes f.samplePerSec) := rfl
  have hbytes : int32At ((f.bytes ++ rest).drop 16) = int32At (int32Bytes f.avgBytesPerSec) := rfl
  have halign : int16At ((f.bytes ++ rest).drop 20) = int16At (int16Bytes f.blockAlign) := rfl
  have hbits : int16At ((f.bytes ++ rest).drop 22) = int16At (int16Bytes f.bitsPerSample) := rfl
  rw [ofBytes, hsize, hformat, hchannels, hrate, hbytes, halign, hbits]
  simp only [int32At_int32Bytes, int16At_int16Bytes]
  rfl

theorem DataChunk.ofBytes_bytes (d : DataChunk) (rest : List UInt8) : DataChunk.ofBytes (d.bytes ++ rest) = d := by
  have hsize : int32At ((d.bytes ++ rest).drop 4) = int32At (int32Bytes d.size) := rfl
  rw [ofBytes, hsize, int32At_int32Bytes]
  rfl

/-! ## The search -/

theorem stringCmp_eq (pat buf : List UInt8) (h : pat.length ≤ buf.length) :
    stringCmp pat buf pat.length = some (if pat <+: buf then 0 else -1) := by
  induction pat generalizing buf with
  | nil => exact (congrArg some (if_pos List.nil_prefix)).symm
  | cons a pat ih =>
      cases buf with
      | nil => exact absurd h (Nat.not_succ_le_zero _)
      | cons b buf =>
          rw [List.length_cons, stringCmp]
          by_cases hab : a = b
          · rw [if_neg (not_not.mpr hab), ih buf (Nat.le_of_succ_le_succ h)]
            exact congrArg some (if_congr (by rw [List.cons_prefix_cons, and_iff_right hab]) rfl rfl)
          · rw [if_pos hab, if_neg fun hp => hab (List.cons_prefix_cons.mp hp).1]

theorem first_cons {b : UInt8} (h₀ : ¬ Occurs pat (b :: buf) 0) (h : First pat buf 0 k) :
    First pat (b :: buf) 0 (k + 1) := by
  refine ⟨Nat.zero_le _, h.occurs, fun i _ hi => ?_⟩
  cases i with
  | zero => exact h₀
  | succ i => exact h.first i (Nat.zero_le i) (Nat.lt_of_succ_lt_succ hi)

theorem searchID_short {num : ℕ} (h : buf.length < pat.length) :
    searchID pat buf.length buf num = some none := by
  rw [searchID.eq_def, if_pos h]

/-- One turn of the search. -/
theorem searchID_cons {b : UInt8} {num : ℕ} (h : ¬ (b :: buf).length < pat.length) :
    searchID pat (b :: buf).length (b :: buf) num =
      if pat <+: b :: buf then some (some num) else searchID pat buf.length buf (num + 1) := by
  rw [searchID.eq_def, if_neg h, stringCmp_eq pat (b :: buf) (Nat.le_of_not_lt h)]
  split_ifs <;> rfl

/-- **The search.** -/
theorem searchID_eq (hpat : pat ≠ []) (buf : List UInt8) (num : ℕ) :
    (∃ k, First pat buf 0 k ∧ searchID pat buf.length buf num = some (some (num + k))) ∨
      ((∀ k, ¬ Occurs pat buf k) ∧ searchID pat buf.length buf num = some none) := by
  induction buf generalizing num with
  | nil =>
      have hlen : 0 < pat.length := List.length_pos_iff.mpr hpat
      refine Or.inr ⟨fun k h => ?_, searchID_short hlen⟩
      have := h.length_le
      rw [List.length_nil] at this
      omega
  | cons b buf ih =>
      by_cases hshort : (b :: buf).length < pat.length
      · refine Or.inr ⟨fun k h => ?_, searchID_short hshort⟩
        have := h.length_le
        omega
      · rw [searchID_cons hshort]
        by_cases hp : pat <+: b :: buf
        · refine Or.inl ⟨0, ⟨le_rfl, hp, fun i _ hi => absurd hi (Nat.not_lt_zero i)⟩, ?_⟩
          rw [if_pos hp]
          rfl
        · rw [if_neg hp]
          rcases ih (num + 1) with ⟨k, hk, heq⟩ | ⟨hnone, heq⟩
          · exact Or.inl ⟨k + 1, first_cons hp hk, by rw [heq, Nat.add_assoc, Nat.add_comm 1]⟩
          · refine Or.inr ⟨fun k => ?_, heq⟩
            cases k with
            | zero => exact hp
            | succ k => exact hnone k

theorem locate_eq {id : FourCC} (size : ℕ) (hk : First id.bytes buf 0 k) (hfit : k + size ≤ buf.length) :
    locate id size buf buf.length = some (some (buf.drop k, buf.length - k)) := by
  have hid : id.bytes ≠ [] := List.cons_ne_nil _ _
  rcases searchID_eq hid buf 0 with ⟨k', hk', heq⟩ | ⟨hnone, -⟩
  · rw [locate, heq, Nat.zero_add, hk'.unique hk]
    exact if_neg (by omega)
  · exact absurd hk.occurs (hnone k)

theorem first_drop : First pat (s.drop n) 0 k ↔ First pat s n (n + k) := by
  constructor
  · intro h
    refine ⟨Nat.le_add_right n k, occurs_drop.mp h.occurs, fun i hi hik hocc => ?_⟩
    refine h.first (i - n) (Nat.zero_le _) (by omega) (occurs_drop.mpr ?_)
    rwa [Nat.add_sub_cancel' hi]
  · intro h
    exact ⟨Nat.zero_le k, occurs_drop.mpr h.occurs, fun i _ hik hocc =>
      h.first (n + i) (Nat.le_add_right n i) (by omega) (occurs_drop.mp hocc)⟩

/-- The pointer after a search from position `n` of the buffer. -/
theorem locate_drop {id : FourCC} (size : ℕ) (hk : First id.bytes buf n k) (hfit : k + size ≤ buf.length) :
    locate id size (buf.drop n) (buf.length - n) = some (some (buf.drop k, buf.length - k)) := by
  have hle := hk.le
  have hk' : First id.bytes (buf.drop n) 0 (k - n) := by
    rw [first_drop, Nat.add_sub_cancel' hle]
    exact hk
  have hloc := locate_eq size hk' (by rw [List.length_drop]; omega)
  rw [List.length_drop, List.drop_drop, Nat.add_sub_cancel' hle] at hloc
  rw [hloc]
  congr 3
  omega

theorem load_drop (hfit : k + n ≤ buf.length) : load (buf.drop k) n = some ((buf.drop k).take n) :=
  if_pos (by rw [List.length_drop]; omega)

/-- A tag is found with enough room behind it, or not. -/
theorem locate_cases (id : FourCC) (size : ℕ) (buf : List UInt8) (n : ℕ) :
    (∃ k, First id.bytes buf n k ∧ k + size ≤ buf.length) ∨
      locate id size (buf.drop n) (buf.length - n) = some none := by
  have hid : id.bytes ≠ [] := List.cons_ne_nil _ _
  rw [← List.length_drop]
  rcases searchID_eq hid (buf.drop n) 0 with ⟨k, hk, heq⟩ | ⟨-, heq⟩
  · by_cases hfit : n + k + size ≤ buf.length
    · exact Or.inl ⟨n + k, first_drop.mp hk, hfit⟩
    · have hlen := hk.occurs.length_le
      have hpat : id.bytes.length = 4 := rfl
      rw [List.length_drop] at hlen
      refine Or.inr ?_
      rw [locate, heq]
      exact if_pos (by rw [List.length_drop]; omega)
  · refine Or.inr ?_
    rw [locate, heq]
    rfl

/-- A chunk struct begins with the tag that was searched for. -/
theorem ofBytes_of_occurs {id : FourCC} (h : Occurs id.bytes buf k) : FourCC.ofBytes (buf.drop k) = id := by
  obtain ⟨rest, hrest⟩ := h
  rw [← hrest]
  rfl

/-- **A buffer with the tags in order.** -/
theorem readHeader_of_tags (header : WavHeader) (file : File) {i j k : ℕ}
    (hbuf : buf = (file.content.drop file.pos).take bufferSize) (hi : First FourCC.riff.bytes buf 0 i)
    (hwave : (RiffChunk.ofBytes ((buf.drop i).take sizeofRiff)).type = .wave)
    (hj : First FourCC.fmt.bytes buf (i + sizeofRiff) j)
    (hk : First FourCC.data.bytes buf (j + sizeofFormat) k) (hfit : k + sizeofData ≤ buf.length) :
    readHeader header file = some (0, ⟨.ofBytes ((buf.drop i).take sizeofRiff),
      .ofBytes ((buf.drop j).take sizeofFormat), .ofBytes ((buf.drop k).take sizeofData)⟩,
      { file with pos := file.pos + (k + sizeofData) }) := by
  have hij := hj.le
  have hjk := hk.le
  have hi' := locate_eq sizeofRiff hi (by omega)
  have hj' := locate_drop sizeofFormat hj (by omega)
  have hk' := locate_drop sizeofData hk hfit
  have hpos : ¬ buf.length ≤ 0 := by unfold sizeofData at hfit; omega
  have hseek : (((file.pos + buf.length : ℕ) : ℤ) + -((buf.length - (k + sizeofData) : ℕ) : ℤ)).toNat =
      file.pos + (k + sizeofData) := by omega
  have hriff : load (buf.drop i) sizeofRiff = _ := load_drop (by omega)
  have hformat : load (buf.drop j) sizeofFormat = _ := load_drop (by omega)
  have hdata : load (buf.drop k) sizeofData = _ := load_drop hfit
  simp only [readHeader, fread, ← hbuf, if_neg hpos, hi', Option.bind_eq_bind, Option.bind_some, hriff, hwave,
    ne_eq, not_true_eq_false, if_false, List.drop_drop, Nat.sub_sub, hj', hformat, hk', hdata, fseekCur, hseek,
    Option.pure_def]

/-- `read_header` finds the tags in order, or returns `-1`. -/
theorem readHeader_cases (header : WavHeader) (file : File)
    (hbuf : buf = (file.content.drop file.pos).take bufferSize) :
    (∃ i j k, First FourCC.riff.bytes buf 0 i ∧ First FourCC.fmt.bytes buf (i + sizeofRiff) j ∧
      First FourCC.data.bytes buf (j + sizeofFormat) k ∧ k + sizeofData ≤ buf.length ∧
      (RiffChunk.ofBytes ((buf.drop i).take sizeofRiff)).type = .wave) ∨
    ∃ h f, readHeader header file = some (-1, h, f) := by
  by_cases hpos : buf.length ≤ 0
  · refine Or.inr ⟨header, { file with pos := file.pos + buf.length }, ?_⟩
    simp only [readHeader, fread, ← hbuf, if_pos hpos, Option.pure_def]
  rcases locate_cases .riff sizeofRiff buf 0 with ⟨i, hi, hifit⟩ | hnone
  · have hi' := locate_drop sizeofRiff hi hifit
    have hriff : load (buf.drop i) sizeofRiff = _ := load_drop hifit
    rw [List.drop_zero, Nat.sub_zero] at hi'
    by_cases hwave : (RiffChunk.ofBytes ((buf.drop i).take sizeofRiff)).type = .wave
    · rcases locate_cases .fmt sizeofFormat buf (i + sizeofRiff) with ⟨j, hj, hjfit⟩ | hnone
      · have hj' := locate_drop sizeofFormat hj hjfit
        have hformat : load (buf.drop j) sizeofFormat = _ := load_drop hjfit
        rcases locate_cases .data sizeofData buf (j + sizeofFormat) with ⟨k, hk, hkfit⟩ | hnone
        · exact Or.inl ⟨i, j, k, hi, hj, hk, hkfit, hwave⟩
        · right
          simp only [readHeader, fread, ← hbuf, if_neg hpos, hi', hriff, hwave, hj', hformat, hnone,
            Option.bind_eq_bind, Option.bind_some, ne_eq, not_true_eq_false, if_false, List.drop_drop,
            Nat.sub_sub, Option.pure_def]
          exact ⟨_, _, rfl⟩
      · right
        simp only [readHeader, fread, ← hbuf, if_neg hpos, hi', hriff, hwave, hnone, Option.bind_eq_bind,
          Option.bind_some, ne_eq, not_true_eq_false, if_false, List.drop_drop, Nat.sub_sub, Option.pure_def]
        exact ⟨_, _, rfl⟩
    · right
      simp only [readHeader, fread, ← hbuf, if_neg hpos, hi', hriff, Option.bind_eq_bind, Option.bind_some,
        ne_eq, if_pos hwave, Option.pure_def]
      exact ⟨_, _, rfl⟩
  · right
    rw [List.drop_zero, Nat.sub_zero] at hnone
    simp only [readHeader, fread, ← hbuf, if_neg hpos, hnone, Option.bind_eq_bind, Option.bind_some,
      Option.pure_def]
    exact ⟨_, _, rfl⟩

/-- **What `read_header` accepts**: only buffers with the tags in order. -/
theorem tags_of_readHeader {header h : WavHeader} {file f : File}
    (hread : readHeader header file = some (0, h, f))
    (hbuf : buf = (file.content.drop file.pos).take bufferSize) :
    ∃ i j k, First FourCC.riff.bytes buf 0 i ∧ First FourCC.fmt.bytes buf (i + sizeofRiff) j ∧
      First FourCC.data.bytes buf (j + sizeofFormat) k ∧ k + sizeofData ≤ buf.length ∧
      (RiffChunk.ofBytes ((buf.drop i).take sizeofRiff)).type = .wave := by
  rcases readHeader_cases header file hbuf with htags | ⟨h', f', hfail⟩
  · exact htags
  · rw [hread] at hfail
    exact absurd (congrArg Prod.fst (Option.some.inj hfail)) (show (0 : ℤ) ≠ -1 by decide)

end AudioProcess
