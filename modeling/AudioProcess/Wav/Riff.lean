import AudioProcess.Wav.Scan

/-!
# Well-formed WAV files

A RIFF chunk is its tag, the size of its body, the body, and a pad byte when the size is odd. A WAV file is
a RIFF chunk of type `WAVE`, whose chunks have a `fmt ` chunk and after it a `data` chunk.

* `Chunk`, `WavFile`: the files, and their bytes;
* `walk`: the first chunk with a tag, found by following the sizes; `walk_chunks`;
* `ScanMeets`: the scan of `read_header` meets the tags of these chunks;
* `readHeader_scan`: what `read_header` reads;
* **`readHeader_wav`**: it accepts the file, and agrees with the walk exactly when its scan does.
-/

namespace AudioProcess

open Bytes

/-! ## Files -/

/-- A RIFF chunk. -/
structure Chunk where
  id : FourCC
  body : List UInt8
  pad : List UInt8
  size_lt : body.length < 2 ^ 32
  pad_length : pad.length = body.length % 2

namespace Chunk

def bytes (c : Chunk) : List UInt8 := c.id.bytes ++ natLE 4 c.body.length ++ c.body ++ c.pad

@[simp] theorem length_bytes (c : Chunk) : c.bytes.length = 8 + c.body.length + c.body.length % 2 := by
  simp only [bytes, List.length_append, length_natLE, c.pad_length]
  rfl

end Chunk

def chunksBytes (cs : List Chunk) : List UInt8 := cs.flatMap Chunk.bytes

theorem chunksBytes_cons (c : Chunk) (cs : List Chunk) : chunksBytes (c :: cs) = c.bytes ++ chunksBytes cs :=
  List.flatMap_cons

theorem chunksBytes_append (cs cs' : List Chunk) :
    chunksBytes (cs ++ cs') = chunksBytes cs ++ chunksBytes cs' := List.flatMap_append

theorem ids_nil : ∀ c ∈ ([] : List Chunk), c.id ≠ .fmt ∧ c.id ≠ .data := List.forall_mem_nil _

/-- A WAV file: any chunks, the `fmt ` chunk, any chunks, the `data` chunk, any chunks. -/
structure WavFile where
  before : List Chunk
  fmt : Chunk
  between : List Chunk
  data : Chunk
  after : List Chunk
  before_id : ∀ c ∈ before, c.id ≠ .fmt ∧ c.id ≠ .data
  fmt_id : fmt.id = .fmt
  fmt_size : 16 ≤ fmt.body.length
  between_id : ∀ c ∈ between, c.id ≠ .fmt ∧ c.id ≠ .data
  data_id : data.id = .data
  size_lt : 4 + (chunksBytes (before ++ fmt :: (between ++ data :: after))).length < 2 ^ 32

namespace WavFile

variable (w : WavFile)

def chunks : List Chunk := w.before ++ w.fmt :: (w.between ++ w.data :: w.after)

def bytes : List UInt8 :=
  FourCC.riff.bytes ++ natLE 4 (4 + (chunksBytes w.chunks).length) ++ FourCC.wave.bytes ++
    chunksBytes w.chunks

/-- Where the `fmt ` chunk begins. -/
def fmtOff : ℕ := sizeofRiff + (chunksBytes w.before).length

/-- Where the `data` chunk begins. -/
def dataOff : ℕ := w.fmtOff + w.fmt.bytes.length + (chunksBytes w.between).length

end WavFile

/-! ## Following the sizes -/

/-- The chunk size at `off`. -/
def sizeAt (bytes : List UInt8) (off : ℕ) : ℕ := leNat ((bytes.drop (off + 4)).take 4)

/-- The first chunk from the one at `off` on whose tag is `id`. -/
def walk (id : FourCC) (bytes : List UInt8) (off : ℕ) : Option ℕ :=
  if off + 8 ≤ bytes.length then
    if FourCC.ofBytes (bytes.drop off) = id then some off
    else walk id bytes (off + 8 + sizeAt bytes off + sizeAt bytes off % 2)
  else none
termination_by bytes.length - off

/-- The format and data structs of the chunks that the sizes lead to, and the file at the first byte of the
data. -/
def walkHeader (file : File) : Option (FormatChunk × DataChunk × File) := do
  let bytes := file.content.drop file.pos
  let fmtOff ← walk .fmt bytes sizeofRiff
  let dataOff ← walk .data bytes fmtOff
  return (.ofBytes (bytes.drop fmtOff), .ofBytes (bytes.drop dataOff),
    { file with pos := file.pos + (dataOff + sizeofData) })

section Walk

variable {id : FourCC} {pre post : List UInt8} {c : Chunk}

theorem drop_chunk : (pre ++ (c.bytes ++ post)).drop pre.length = c.bytes ++ post :=
  List.drop_left

theorem id_at : FourCC.ofBytes ((pre ++ (c.bytes ++ post)).drop pre.length) = c.id := by
  rw [drop_chunk]
  rfl

theorem sizeAt_chunk : sizeAt (pre ++ (c.bytes ++ post)) pre.length = c.body.length := by
  have htake : ((c.bytes ++ post).drop 4).take 4 = natLE 4 c.body.length := by
    simp only [Chunk.bytes, FourCC.bytes, List.append_assoc, List.cons_append, List.nil_append,
      List.drop_succ_cons, List.drop_zero]
    exact List.take_left' (length_natLE 4 _)
  rw [sizeAt, ← List.drop_drop, drop_chunk, htake]
  exact leNat_natLE c.size_lt

theorem fits_chunk : pre.length + 8 ≤ (pre ++ (c.bytes ++ post)).length := by
  rw [List.length_append, List.length_append, Chunk.length_bytes]
  omega

/-- **The walk over chunks.** -/
theorem walk_chunks {cs : List Chunk} (hcs : ∀ c ∈ cs, c.id ≠ id) (hc : c.id = id) (pre post : List UInt8) :
    walk id (pre ++ (chunksBytes cs ++ (c.bytes ++ post))) pre.length =
      some (pre.length + (chunksBytes cs).length) := by
  induction cs generalizing pre with
  | nil =>
      rw [walk]
      simp only [chunksBytes, List.flatMap_nil, List.nil_append, List.length_nil, Nat.add_zero]
      rw [if_pos fits_chunk, if_pos (id_at.trans hc)]
  | cons d cs ih =>
      have hd : d.id ≠ id := hcs d List.mem_cons_self
      rw [chunksBytes_cons, List.append_assoc, walk, if_pos fits_chunk, if_neg (by rwa [id_at]), sizeAt_chunk]
      have hnext := ih (fun c hc => hcs c (List.mem_cons_of_mem _ hc)) (pre ++ d.bytes)
      rw [List.append_assoc, List.length_append, Chunk.length_bytes] at hnext
      rw [List.length_append, Chunk.length_bytes, ← Nat.add_assoc, ← hnext]
      congr 1
      omega

end Walk

/-! ## The layout of a WAV file -/

section Layout

theorem occurs_chunk (pre : List UInt8) (c : Chunk) (post : List UInt8) :
    Occurs c.id.bytes (pre ++ (c.bytes ++ post)) pre.length := by
  unfold Occurs
  rw [drop_chunk, Chunk.bytes, List.append_assoc, List.append_assoc, List.append_assoc]
  exact List.prefix_append _ _

namespace WavFile

variable (w : WavFile)

/-- The first twelve bytes. -/
def head : List UInt8 :=
  FourCC.riff.bytes ++ natLE 4 (4 + (chunksBytes w.chunks).length) ++ FourCC.wave.bytes

theorem length_head : w.head.length = sizeofRiff := by
  simp only [head, List.length_append, length_natLE]
  rfl

/-- The bytes up to the `fmt ` chunk. -/
def upToFmt : List UInt8 := w.head ++ chunksBytes w.before

theorem length_upToFmt : w.upToFmt.length = w.fmtOff := by
  rw [upToFmt, List.length_append, length_head, fmtOff]

/-- The bytes up to the `data` chunk. -/
def upToData : List UInt8 := w.upToFmt ++ (w.fmt.bytes ++ chunksBytes w.between)

theorem length_upToData : w.upToData.length = w.dataOff := by
  rw [upToData, List.length_append, List.length_append, length_upToFmt, dataOff, Nat.add_assoc]

theorem bytes_eq : w.bytes = w.upToData ++ (w.data.bytes ++ chunksBytes w.after) := by
  simp only [bytes, upToData, upToFmt, head, chunks, chunksBytes_append, chunksBytes_cons, List.append_assoc]

variable {w} {s : List UInt8}

/-- A string that begins with a WAV file, cut at the `data` chunk. -/
theorem cut_data (hs : w.bytes <+: s) : ∃ post, s = w.upToData ++ (w.data.bytes ++ post) := by
  obtain ⟨rest, rfl⟩ := hs
  exact ⟨chunksBytes w.after ++ rest, by simp only [bytes_eq, List.append_assoc]⟩

theorem cut_fmt (hs : w.bytes <+: s) : ∃ post, s = w.upToFmt ++ (w.fmt.bytes ++ post) := by
  obtain ⟨post, rfl⟩ := cut_data hs
  exact ⟨chunksBytes w.between ++ (w.data.bytes ++ post), by simp only [upToData, List.append_assoc]⟩

theorem occurs_fmt (hs : w.bytes <+: s) : Occurs FourCC.fmt.bytes s w.fmtOff := by
  obtain ⟨post, rfl⟩ := cut_fmt hs
  rw [← w.fmt_id, ← w.length_upToFmt]
  exact occurs_chunk w.upToFmt w.fmt post

theorem occurs_data (hs : w.bytes <+: s) : Occurs FourCC.data.bytes s w.dataOff := by
  obtain ⟨post, rfl⟩ := cut_data hs
  rw [← w.data_id, ← w.length_upToData]
  exact occurs_chunk w.upToData w.data post

theorem dataOff_le (hs : w.bytes <+: s) : w.dataOff + sizeofData ≤ s.length := by
  obtain ⟨post, rfl⟩ := cut_data hs
  rw [List.length_append, List.length_append, length_upToData, Chunk.length_bytes]
  unfold sizeofData
  omega

theorem fmtOff_le : w.fmtOff + sizeofFormat ≤ w.dataOff := by
  have := w.fmt_size
  rw [dataOff, Chunk.length_bytes]
  unfold sizeofFormat
  omega

theorem walk_fmt (hs : w.bytes <+: s) : walk .fmt s sizeofRiff = some w.fmtOff := by
  obtain ⟨post, rfl⟩ := cut_fmt hs
  have hwalk := walk_chunks (fun c hc => (w.before_id c hc).1) w.fmt_id w.head post
  rw [upToFmt, List.append_assoc]
  rwa [w.length_head] at hwalk

theorem walk_data (hs : w.bytes <+: s) : walk .data s w.fmtOff = some w.dataOff := by
  obtain ⟨post, rfl⟩ := cut_data hs
  have hids : ∀ c ∈ w.fmt :: w.between, c.id ≠ .data := by
    intro c hc
    rcases List.mem_cons.mp hc with rfl | hc
    · rw [w.fmt_id]
      decide
    · exact (w.between_id c hc).2
  have hwalk := walk_chunks hids w.data_id w.upToFmt post
  rw [chunksBytes_cons, w.length_upToFmt, List.length_append, ← Nat.add_assoc] at hwalk
  rw [upToData, List.append_assoc]
  exact hwalk

end WavFile

end Layout

theorem walkHeader_wav (w : WavFile) (file : File) (hs : w.bytes <+: file.content.drop file.pos) :
    walkHeader file = some (.ofBytes ((file.content.drop file.pos).drop w.fmtOff),
      .ofBytes ((file.content.drop file.pos).drop w.dataOff),
      { file with pos := file.pos + (w.dataOff + sizeofData) }) := by
  simp only [walkHeader, WavFile.walk_fmt hs, WavFile.walk_data hs, Option.bind_eq_bind, Option.bind_some,
    Option.pure_def]

/-! ## The scan and the walk -/

/-- The scan meets the tags of the chunks at `fmtOff` and `dataOff`: the first `fmt ` heads the bytes of the
one, and the first `data` after them is that of the other. -/
def ScanMeets (bytes : List UInt8) (fmtOff dataOff : ℕ) : Prop :=
  ∃ j, First FourCC.fmt.bytes bytes sizeofRiff j ∧
    (bytes.drop j).take sizeofFormat = (bytes.drop fmtOff).take sizeofFormat ∧
    First FourCC.data.bytes bytes (j + sizeofFormat) dataOff

theorem scanMeets_of_first {bytes : List UInt8} {fmtOff dataOff : ℕ}
    (hfmt : First FourCC.fmt.bytes bytes sizeofRiff fmtOff)
    (hdata : First FourCC.data.bytes bytes (fmtOff + sizeofFormat) dataOff) :
    ScanMeets bytes fmtOff dataOff := ⟨fmtOff, hfmt, rfl, hdata⟩

/-- First occurrences near the beginning are those of the buffer. -/
theorem first_take {pat s : List UInt8} {lo k n : ℕ} (hfit : k + pat.length ≤ (s.take n).length) :
    First pat (s.take n) lo k ↔ First pat s lo k := by
  have hocc : ∀ i ≤ k, (Occurs pat (s.take n) i ↔ Occurs pat s i) := fun i hi =>
    occurs_of_prefix (List.take_prefix n s) (by omega)
  constructor
  · exact fun h => ⟨h.le, (hocc k le_rfl).mp h.occurs, fun i hi hik ho =>
      h.first i hi hik ((hocc i hik.le).mpr ho)⟩
  · exact fun h => ⟨h.le, (hocc k le_rfl).mpr h.occurs, fun i hi hik ho =>
      h.first i hi hik ((hocc i hik.le).mp ho)⟩

theorem riff_head {w : WavFile} {s : List UInt8} (hs : w.bytes <+: s) :
    Occurs FourCC.riff.bytes s 0 ∧ (RiffChunk.ofBytes (s.take sizeofRiff)).type = .wave := by
  obtain ⟨post, rfl⟩ := w.cut_fmt hs
  have htake : (w.upToFmt ++ (w.fmt.bytes ++ post)).take sizeofRiff = w.head := by
    rw [WavFile.upToFmt, List.append_assoc]
    exact List.take_left' w.length_head
  refine ⟨?_, by rw [htake]; rfl⟩
  simp only [Occurs, List.drop_zero, WavFile.upToFmt, WavFile.head, List.append_assoc]
  exact List.prefix_append _ _

/-- **What the scan reads from a WAV file**: the first `fmt ` tag and the first `data` tag after it, which are
not past those of the chunks. -/
theorem readHeader_scan {w : WavFile} {s : List UInt8} (header : WavHeader) (file : File)
    (hfile : s = file.content.drop file.pos) (hs : w.bytes <+: s)
    (hdata : w.dataOff + sizeofData ≤ bufferSize) :
    ∃ j k, First FourCC.fmt.bytes s sizeofRiff j ∧ j + sizeofFormat ≤ s.length ∧
      First FourCC.data.bytes s (j + sizeofFormat) k ∧
      readHeader header file = some (0, ⟨.ofBytes (s.take sizeofRiff), .ofBytes (s.drop j), .ofBytes (s.drop k)⟩,
        { file with pos := file.pos + (k + sizeofData) }) := by
  have hlen : w.dataOff + sizeofData ≤ (s.take bufferSize).length := by
    rw [List.length_take]
    exact le_min hdata (w.dataOff_le hs)
  have hlen' : w.dataOff + sizeofData ≤ s.length := w.dataOff_le hs
  have hchunk := w.fmtOff_le
  have hoff : sizeofRiff ≤ w.fmtOff := Nat.le_add_right _ _
  obtain ⟨j, hj⟩ := first_exists hoff (w.occurs_fmt hs)
  have hjle := hj.le_of_occurs hoff (w.occurs_fmt hs)
  have hfrom : j + sizeofFormat ≤ w.dataOff := by omega
  obtain ⟨k, hk⟩ := first_exists hfrom (w.occurs_data hs)
  have hkle := hk.le_of_occurs hfrom (w.occurs_data hs)
  have hjk := hk.le
  -- the buffer has the same first tags as the file
  have hriff : First FourCC.riff.bytes (s.take bufferSize) 0 0 :=
    (first_take (by show 0 + 4 ≤ _; unfold sizeofFormat at *; omega)).mpr
      ⟨le_rfl, (riff_head hs).1, fun i _ hi => absurd hi (Nat.not_lt_zero i)⟩
  have hj' : First FourCC.fmt.bytes (s.take bufferSize) (0 + sizeofRiff) j :=
    (first_take (by show j + 4 ≤ _; unfold sizeofFormat sizeofData at *; omega)).mpr hj
  have hk' : First FourCC.data.bytes (s.take bufferSize) (j + sizeofFormat) k :=
    (first_take (by show k + 4 ≤ _; unfold sizeofData at *; omega)).mpr hk
  have hcut : ∀ off size, off + size ≤ w.dataOff + sizeofData →
      ((s.take bufferSize).drop off).take size = (s.drop off).take size := fun off size hoff =>
    take_drop_take (hoff.trans hdata)
  have hwave : (RiffChunk.ofBytes (((s.take bufferSize).drop 0).take sizeofRiff)).type = .wave := by
    rw [hcut 0 sizeofRiff (by omega)]
    exact (riff_head hs).2
  have hread := readHeader_of_tags header file (by rw [hfile]) hriff hwave hj' hk' (by omega)
  rw [hcut 0 sizeofRiff (by omega), hcut j sizeofFormat (by omega), hcut k sizeofData (by omega),
    FormatChunk.ofBytes_take, DataChunk.ofBytes_take] at hread
  exact ⟨j, k, hj, by omega, hk, hread⟩

/-- **The reader on WAV files.** It accepts the file; and its structs and the file position are those of the
walk exactly when its scan meets the tags of the `fmt ` and `data` chunks. -/
theorem readHeader_wav (w : WavFile) (header : WavHeader) (file : File)
    (hs : w.bytes <+: file.content.drop file.pos) (hdata : w.dataOff + sizeofData ≤ bufferSize) :
    ∃ h f, readHeader header file = some (0, h, f) ∧
      (walkHeader file = some (h.format, h.data, f) ↔
        ScanMeets (file.content.drop file.pos) w.fmtOff w.dataOff) := by
  obtain ⟨j, k, hj, hjlen, hk, hread⟩ := readHeader_scan header file rfl hs hdata
  have hfmtLen := w.fmtOff_le.trans ((Nat.le_add_right _ _).trans (w.dataOff_le hs))
  have hinj : FormatChunk.ofBytes ((file.content.drop file.pos).drop w.fmtOff) =
      FormatChunk.ofBytes ((file.content.drop file.pos).drop j) ↔ _ :=
    FormatChunk.ofBytes_inj (by rw [List.length_drop]; omega) (by rw [List.length_drop]; omega)
  refine ⟨_, _, hread, ?_⟩
  rw [walkHeader_wav w file hs]
  constructor
  · intro heq
    have heq := Option.some.inj heq
    have hformat := congrArg Prod.fst heq
    have hoff := congrArg (fun r => r.2.2.pos) heq
    have hkeq : w.dataOff = k := Nat.add_right_cancel (Nat.add_left_cancel hoff)
    exact ⟨j, hj, (hinj.mp hformat).symm, hkeq ▸ hk⟩
  · rintro ⟨j', hj', hbytes, hmeet⟩
    rw [hj'.unique hj] at hbytes hmeet
    rw [hmeet.unique hk, hinj.mpr hbytes.symm]

/-! ## Two files -/

/-- A file with only its `fmt ` and `data` chunks. -/
def plainWav : WavFile where
  before := []
  fmt := ⟨.fmt, List.replicate 16 1, [], by decide, rfl⟩
  between := []
  data := ⟨.data, [7, 8], [], by decide, rfl⟩
  after := []
  before_id := ids_nil
  fmt_id := rfl
  fmt_size := by decide
  between_id := ids_nil
  data_id := rfl
  size_lt := by decide

/-- The header before a call. -/
def clearedHeader : WavHeader :=
  ⟨⟨.riff, 0, .wave⟩, ⟨.fmt, 0, 0, 0, 0, 0, 0, 0⟩, ⟨.data, 0⟩⟩

theorem readHeader_wav_plain : ∃ h f, readHeader clearedHeader ⟨plainWav.bytes, 0⟩ = some (0, h, f) ∧
    walkHeader ⟨plainWav.bytes, 0⟩ = some (h.format, h.data, f) := by
  obtain ⟨h, f, hread, hiff⟩ := readHeader_wav plainWav clearedHeader ⟨plainWav.bytes, 0⟩ List.prefix_rfl
    (by decide)
  refine ⟨h, f, hread, hiff.mpr (scanMeets_of_first ⟨le_rfl, by decide, fun i hle hlt => ?_⟩
    ⟨le_rfl, by decide, fun i hle hlt => ?_⟩)⟩
  · exact absurd hle (Nat.not_le.mpr hlt)
  · exact absurd hle (Nat.not_le.mpr hlt)

/-- A `LIST` chunk whose contents begin with `data`. -/
def listChunk : Chunk := ⟨⟨76, 73, 83, 84⟩, FourCC.data.bytes ++ [9, 0, 0, 0], [], by decide, rfl⟩

/-- The same file with that chunk before its `data` chunk. -/
def listWav : WavFile :=
  { plainWav with
    between := [listChunk]
    between_id := fun c hc => by
      rw [List.mem_singleton.mp hc]
      decide
    size_lt := by decide }

/-- The scan takes the contents of the `LIST` chunk for the `data` chunk. -/
theorem not_readHeader_list : listWav.dataOff + sizeofData ≤ bufferSize ∧
    ¬ ∃ h f, readHeader clearedHeader ⟨listWav.bytes, 0⟩ = some (0, h, f) ∧
      walkHeader ⟨listWav.bytes, 0⟩ = some (h.format, h.data, f) := by
  refine ⟨by decide, ?_⟩
  rintro ⟨h, f, hread, hwalk⟩
  have hpos : (readHeader clearedHeader ⟨listWav.bytes, 0⟩).map (fun r => r.2.2.pos) = some 52 := by decide
  rw [hread] at hpos
  have hwav := walkHeader_wav listWav ⟨listWav.bytes, 0⟩ List.prefix_rfl
  rw [hwalk] at hwav
  have hfile := congrArg (fun r => r.2.2.pos) (Option.some.inj hwav)
  have h52 : f.pos = 52 := Option.some.inj hpos
  have h60 : f.pos = 60 := hfile
  omega

end AudioProcess
