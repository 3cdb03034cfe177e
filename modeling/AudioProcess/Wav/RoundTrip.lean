import AudioProcess.Wav.Scan

/-!
# Writing a header and reading it back

* `WavHeader.Tagged`: the four tags are right; `tagged_of_readHeader`: as in every header that is read;
* `written`: a file of a header and samples, opened at its start;
* `readHeader_bytes`: the tags stand where the scan begins to look for them, so no field can be taken for
  one; **`readHeader_roundTrip`**.
-/

namespace AudioProcess

open Bytes

/-- The tags of a WAV file. -/
structure WavHeader.Tagged (h : WavHeader) : Prop where
  riff : h.riff.id = .riff
  wave : h.riff.type = .wave
  fmt : h.format.id = .fmt
  data : h.data.id = .data

/-- The header that `write_header` writes. -/
def WavHeader.stamped (h : WavHeader) : WavHeader := { h with format := { h.format with size := 16 } }

/-- A new file after `write_header` and the bytes `payload`, opened at its start. -/
def written (h : WavHeader) (payload : List UInt8) : File :=
  { fwrite (writeHeader h ⟨[], 0⟩).2.2 payload with pos := 0 }

theorem FourCC.length_bytes (t : FourCC) : t.bytes.length = 4 := rfl

theorem length_int32Bytes (x : Int32) : (int32Bytes x).length = 4 := length_natLE 4 _

theorem length_int16Bytes (x : Int16) : (int16Bytes x).length = 2 := length_natLE 2 _

theorem RiffChunk.length_bytes (r : RiffChunk) : r.bytes.length = sizeofRiff := by
  simp only [bytes, List.length_append, FourCC.length_bytes, length_int32Bytes]
  rfl

theorem FormatChunk.length_bytes (f : FormatChunk) : f.bytes.length = sizeofFormat := by
  simp only [bytes, List.length_append, FourCC.length_bytes, length_int32Bytes, length_int16Bytes]
  rfl

theorem DataChunk.length_bytes (d : DataChunk) : d.bytes.length = sizeofData := by
  simp only [bytes, List.length_append, FourCC.length_bytes, length_int32Bytes]
  rfl

theorem WavHeader.length_bytes (h : WavHeader) : h.bytes.length = sizeofHeader := by
  simp only [bytes, List.length_append, RiffChunk.length_bytes, FormatChunk.length_bytes, DataChunk.length_bytes]
  rfl

variable {h h₀ : WavHeader}

theorem content_written (h : WavHeader) (payload : List UInt8) :
    (written h payload).content = h.stamped.bytes ++ payload := by
  simp [written, fwrite, writeHeader, WavHeader.stamped]

/-- The header's parts in a file. -/
theorem drop_bytes (h : WavHeader) (rest : List UInt8) :
    (h.bytes ++ rest).drop sizeofRiff = h.format.bytes ++ (h.data.bytes ++ rest) ∧
      (h.bytes ++ rest).drop (sizeofRiff + sizeofFormat) = h.data.bytes ++ rest ∧
      (h.bytes ++ rest).drop sizeofHeader = rest := by
  simp only [WavHeader.bytes, List.append_assoc]
  have hriff : ∀ xs, (h.riff.bytes ++ xs).drop sizeofRiff = xs := fun xs =>
    List.drop_left' h.riff.length_bytes
  have hformat : ∀ xs, (h.format.bytes ++ xs).drop sizeofFormat = xs := fun xs =>
    List.drop_left' h.format.length_bytes
  have hdata : ∀ xs, (h.data.bytes ++ xs).drop sizeofData = xs := fun xs =>
    List.drop_left' h.data.length_bytes
  refine ⟨hriff _, ?_, ?_⟩
  · rw [← List.drop_drop, hriff, hformat]
  · rw [sizeofHeader, ← List.drop_drop, ← List.drop_drop, hriff, hformat, hdata]

/-- Every header that is read has its tags. -/
theorem tagged_of_readHeader {file f : File} (hread : readHeader h₀ file = some (0, h, f)) : h.Tagged := by
  obtain ⟨i, j, k, hi, hj, hk, hfit, hwave⟩ := tags_of_readHeader hread rfl
  have heq := readHeader_of_tags h₀ file rfl hi hwave hj hk hfit
  rw [hread] at heq
  obtain ⟨-, heq⟩ := Prod.mk.inj (Option.some.inj heq)
  obtain ⟨rfl, -⟩ := Prod.mk.inj heq
  have hid : ∀ {id : FourCC} {buf : List UInt8} {p n : ℕ}, 4 ≤ n → Occurs id.bytes buf p →
      FourCC.ofBytes ((buf.drop p).take n) = id := fun hn hocc =>
    (FourCC.ofBytes_take hn).trans (ofBytes_of_occurs hocc)
  exact ⟨hid (by decide) hi.occurs, hwave, hid (by decide) hj.occurs, hid (by decide) hk.occurs⟩

theorem WavHeader.Tagged.stamped (ht : h.Tagged) : h.stamped.Tagged :=
  ⟨ht.riff, ht.wave, ht.fmt, ht.data⟩

/-- A tag at the position where its search begins is found there. -/
theorem first_of_prefix {pat s rest : List UInt8} {n : ℕ} (hs : s.drop n = pat ++ rest) : First pat s n n :=
  ⟨le_rfl, ⟨rest, hs.symm⟩, fun _ hle hlt => absurd hle (Nat.not_le.mpr hlt)⟩

/-- **A tagged header at the start of a file is read back.** -/
theorem readHeader_bytes (ht : h.Tagged) (h₀ : WavHeader) (payload : List UInt8) :
    readHeader h₀ ⟨h.bytes ++ payload, 0⟩ = some (0, h, ⟨h.bytes ++ payload, sizeofHeader⟩) := by
  -- the buffer holds the whole header
  obtain ⟨rest, hbuf⟩ : ∃ rest, (h.bytes ++ payload).take bufferSize = h.bytes ++ rest := by
    refine ⟨payload.take (bufferSize - h.bytes.length), ?_⟩
    rw [List.take_append, List.take_of_length_le]
    rw [h.length_bytes]
    decide
  obtain ⟨hformat, hdata, -⟩ := drop_bytes h rest
  have htag : ∀ {t id : FourCC} {xs : List UInt8}, t = id → t.bytes ++ xs = id.bytes ++ xs := by
    rintro t _ xs rfl
    rfl
  have hriff₀ : First FourCC.riff.bytes (h.bytes ++ rest) 0 0 := by
    apply first_of_prefix
    rw [List.drop_zero, WavHeader.bytes, RiffChunk.bytes]
    simp only [List.append_assoc]
    exact htag ht.riff
  have hfmt₀ : First FourCC.fmt.bytes (h.bytes ++ rest) (0 + sizeofRiff) sizeofRiff := by
    rw [Nat.zero_add]
    apply first_of_prefix
    rw [hformat, FormatChunk.bytes]
    simp only [List.append_assoc]
    exact htag ht.fmt
  have hdata₀ : First FourCC.data.bytes (h.bytes ++ rest) (sizeofRiff + sizeofFormat)
      (sizeofRiff + sizeofFormat) := by
    apply first_of_prefix
    rw [hdata, DataChunk.bytes]
    simp only [List.append_assoc]
    exact htag ht.data
  have hriff : RiffChunk.ofBytes (((h.bytes ++ rest).drop 0).take sizeofRiff) = h.riff := by
    have htake : (h.bytes ++ rest).take sizeofRiff = h.riff.bytes ++ [] := by
      rw [WavHeader.bytes, List.append_assoc, List.append_assoc, List.append_nil]
      exact List.take_left' h.riff.length_bytes
    rw [List.drop_zero, htake, RiffChunk.ofBytes_bytes]
  have hread := readHeader_of_tags h₀ ⟨h.bytes ++ payload, 0⟩ hbuf.symm hriff₀ (hriff ▸ ht.wave) hfmt₀ hdata₀
    (by rw [List.length_append, h.length_bytes]; exact Nat.le_add_right _ _)
  rw [hriff, hformat, hdata, FormatChunk.ofBytes_take, DataChunk.ofBytes_take, FormatChunk.ofBytes_bytes,
    DataChunk.ofBytes_bytes] at hread
  rw [hread]
  rfl

/-- **The round trip.** `write_header` succeeds, and a tagged header is read back from the file it begins, with
format size `16` and the file at the payload; and so is every header that was read from some file. -/
theorem readHeader_roundTrip :
    (∀ h : WavHeader, h.Tagged → ∀ h₀ payload, (writeHeader h ⟨[], 0⟩).1 = 0 ∧
      readHeader h₀ (written h payload) =
        some (0, { h with format := { h.format with size := 16 } }, { written h payload with pos := 44 }) ∧
      (written h payload).content.drop 44 = payload) ∧
    (∀ h₀ file h f, readHeader h₀ file = some (0, h, f) → ∀ h₁ payload,
      readHeader h₁ (written h payload) =
        some (0, { h with format := { h.format with size := 16 } }, { written h payload with pos := 44 })) := by
  have hback : ∀ h : WavHeader, h.Tagged → ∀ h₀ payload, readHeader h₀ (written h payload) =
      some (0, { h with format := { h.format with size := 16 } }, { written h payload with pos := 44 }) := by
    intro h ht h₀ payload
    have hfile : written h payload = ⟨h.stamped.bytes ++ payload, 0⟩ :=
      congrArg (File.mk · 0) (content_written h payload)
    rw [hfile]
    exact readHeader_bytes ht.stamped h₀ payload
  refine ⟨fun h ht h₀ payload => ⟨rfl, hback h ht h₀ payload, ?_⟩, fun h₀ file h f hread => ?_⟩
  · rw [content_written]
    exact (drop_bytes h.stamped payload).2.2
  · exact hback h (tagged_of_readHeader hread)

/-- A header with nothing but its tags. -/
def tagsOnly : WavHeader := ⟨⟨.riff, 0, .wave⟩, ⟨.fmt, 0, 0, 0, 0, 0, 0, 0⟩, ⟨.data, 0⟩⟩

theorem readHeader_roundTrip_tagsOnly :
    readHeader tagsOnly (written tagsOnly [7]) = some (0, tagsOnly.stamped, { written tagsOnly [7] with pos := 44 }) ∧
      readHeader tagsOnly (written tagsOnly.stamped [8, 9]) =
        some (0, tagsOnly.stamped, { written tagsOnly.stamped [8, 9] with pos := 44 }) := by
  have hread := (readHeader_roundTrip.1 tagsOnly ⟨rfl, rfl, rfl, rfl⟩ tagsOnly [7]).2.1
  exact ⟨hread, readHeader_roundTrip.2 _ _ _ _ hread tagsOnly [8, 9]⟩

end AudioProcess
