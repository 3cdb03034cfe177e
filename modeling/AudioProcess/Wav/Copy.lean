import AudioProcess.Wav.Riff
import AudioProcess.Wav.RoundTrip

/-!
# Copying a header

The program copies the header it read in front of its output. `write_header` sets the size of the `fmt `
chunk to the one it writes, and keeps the RIFF size of the source, which counts the chunks that the copy
leaves out.

* `WellFormed`: the bytes are those of a WAV file;
* `wellFormed_stamped`: when a header and its payload are; `readHeader_wavFile`: the header read from a file;
* `SizesAgree`: the source's RIFF size is that of a file with nothing but the 16 bytes of the format and the
  data; `sizesAgree_iff`: which files these are;
* **`wellFormed_copy_iff`**: the copy is well formed exactly when the source's sizes agree so.
-/

namespace AudioProcess

open Bytes

/-- The bytes are a WAV file: the RIFF size is that of the rest of the file, and each chunk has the size it
says. -/
def WellFormed (bytes : List UInt8) : Prop := ∃ w : WavFile, w.bytes = bytes

/-- The RIFF size of `bytes` is `36` more than the size behind the `data` tag that the scan meets. -/
def SizesAgree (bytes : List UInt8) : Prop :=
  ∃ j k, First FourCC.fmt.bytes bytes sizeofRiff j ∧ First FourCC.data.bytes bytes (j + sizeofFormat) k ∧
    sizeAt bytes 0 = 36 + sizeAt bytes k

/-- The fields of a `FORMAT_CHUNK` behind its size. -/
def FormatChunk.body (f : FormatChunk) : List UInt8 :=
  int16Bytes f.format ++ int16Bytes f.channels ++ int32Bytes f.samplePerSec ++
    int32Bytes f.avgBytesPerSec ++ int16Bytes f.blockAlign ++ int16Bytes f.bitsPerSample

theorem FormatChunk.bytes_eq (f : FormatChunk) : f.bytes = f.id.bytes ++ int32Bytes f.size ++ f.body := by
  simp only [bytes, body, List.append_assoc]

theorem FormatChunk.length_body (f : FormatChunk) : f.body.length = 16 := by
  simp only [body, List.length_append, length_int32Bytes, length_int16Bytes]

/-! ## Sizes -/

theorem toNat_int32At (bs : List UInt8) : (int32At bs).toUInt32.toNat = leNat (bs.take 4) := by
  have hlt := leNat_lt (bs.take 4)
  have hle : 256 ^ (bs.take 4).length ≤ 2 ^ 32 := by
    have h4 : (bs.take 4).length ≤ 4 := List.length_take_le 4 bs
    calc 256 ^ (bs.take 4).length ≤ 256 ^ 4 := Nat.pow_le_pow_right (by decide) h4
      _ = 2 ^ 32 := rfl
  rw [int32At, Int32.toUInt32_ofNat', UInt32.toNat_ofNat_of_lt' (hlt.trans_le hle)]

/-- The size of a chunk struct in a file. -/
theorem toNat_size (s : List UInt8) (k : ℕ) : (int32At ((s.drop k).drop 4)).toUInt32.toNat = sizeAt s k := by
  rw [toNat_int32At, List.drop_drop]
  rfl

/-- The chunks of a file have even length, with their pad bytes. -/
theorem chunksBytes_even (cs : List Chunk) : (chunksBytes cs).length % 2 = 0 := by
  induction cs with
  | nil => rfl
  | cons c cs ih =>
      rw [chunksBytes_cons, List.length_append, Chunk.length_bytes]
      omega

theorem chunksBytes_eq_nil {cs : List Chunk} (h : (chunksBytes cs).length = 0) : cs = [] := by
  cases cs with
  | nil => rfl
  | cons c cs =>
      rw [chunksBytes_cons, List.length_append, Chunk.length_bytes] at h
      omega

namespace WavFile

variable (w : WavFile)

theorem length_bytes : w.bytes.length = 8 + (4 + (chunksBytes w.chunks).length) := by
  simp only [bytes, List.length_append, length_natLE, FourCC.length_bytes]
  omega

/-- The RIFF size of a WAV file. -/
theorem sizeAt_zero : sizeAt w.bytes 0 = 4 + (chunksBytes w.chunks).length := by
  have htake : (w.bytes.drop 4).take 4 = natLE 4 (4 + (chunksBytes w.chunks).length) := by
    simp only [bytes, List.append_assoc]
    rw [List.drop_left' (FourCC.length_bytes _)]
    exact List.take_left' (length_natLE 4 _)
  rw [sizeAt, Nat.zero_add, htake]
  exact leNat_natLE w.size_lt

theorem sizeAt_data : sizeAt w.bytes w.dataOff = w.data.body.length := by
  rw [bytes_eq, ← length_upToData]
  exact sizeAt_chunk

theorem length_chunks : (chunksBytes w.chunks).length = (chunksBytes w.before).length +
    (8 + w.fmt.body.length + w.fmt.body.length % 2) + (chunksBytes w.between).length +
    (8 + w.data.body.length + w.data.body.length % 2) + (chunksBytes w.after).length := by
  simp only [chunks, chunksBytes_append, chunksBytes_cons, List.length_append, Chunk.length_bytes]
  omega

end WavFile

/-- **The files whose sizes agree**, when the scan meets their own chunks: a `fmt ` chunk of `16` bytes, a
`data` chunk of even length, and no other chunk. -/
theorem sizesAgree_iff (w : WavFile) (hscan : ScanMeets w.bytes w.fmtOff w.dataOff) :
    SizesAgree w.bytes ↔ w.before = [] ∧ w.fmt.body.length = 16 ∧ w.between = [] ∧
      w.data.body.length % 2 = 0 ∧ w.after = [] := by
  obtain ⟨j, hj, -, hdata⟩ := hscan
  have hlen := w.length_chunks
  have hfmt := w.fmt_size
  have hsizes : SizesAgree w.bytes ↔ 4 + (chunksBytes w.chunks).length = 36 + w.data.body.length := by
    rw [← w.sizeAt_zero, ← w.sizeAt_data]
    constructor
    · rintro ⟨j', k', hj', hk', heq⟩
      rw [hj'.unique hj] at hk'
      rwa [hk'.unique hdata] at heq
    · exact fun heq => ⟨j, w.dataOff, hj, hdata, heq⟩
  rw [hsizes]
  constructor
  · intro heq
    refine ⟨chunksBytes_eq_nil ?_, ?_, chunksBytes_eq_nil ?_, ?_, chunksBytes_eq_nil ?_⟩ <;> omega
  · rintro ⟨hbefore, hfmt16, hbetween, heven, hafter⟩
    rw [hbefore, hbetween, hafter] at hlen
    have hnil : (chunksBytes []).length = 0 := rfl
    omega

/-! ## The copy -/

variable {h h₀ : WavHeader} {payload : List UInt8}

/-- The file of a tagged header and the payload it announces. -/
def canonicalWav (format : FormatChunk) (payload : List UInt8) (heven : payload.length % 2 = 0)
    (hlt : 36 + payload.length < 2 ^ 32) : WavFile where
  before := []
  fmt := ⟨.fmt, format.body, [], by rw [format.length_body]; decide, by rw [format.length_body]; rfl⟩
  between := []
  data := ⟨.data, payload, [], by omega, heven.symm⟩
  after := []
  before_id := ids_nil
  fmt_id := rfl
  fmt_size := by rw [format.length_body]
  between_id := ids_nil
  data_id := rfl
  size_lt := by
    simp only [List.nil_append, chunksBytes_cons, List.length_append, Chunk.length_bytes, format.length_body]
    have hnil : (chunksBytes []).length = 0 := rfl
    omega

/-- **When a header and its payload are a WAV file.** -/
theorem wellFormed_stamped (ht : h.Tagged) (hlen : payload.length = h.data.size.toUInt32.toNat) :
    WellFormed (h.stamped.bytes ++ payload) ↔
      h.riff.size.toUInt32.toNat = 36 + payload.length ∧ payload.length % 2 = 0 := by
  constructor
  · rintro ⟨w, hw⟩
    have hsize := w.sizeAt_zero
    have hbytes := w.length_bytes
    have heven := chunksBytes_even w.chunks
    have hriff : sizeAt (h.stamped.bytes ++ payload) 0 = h.riff.size.toUInt32.toNat := by
      rw [← toNat_size, List.drop_zero]
      exact congrArg (fun x : Int32 => x.toUInt32.toNat) (int32At_int32Bytes h.riff.size)
    rw [hw, List.length_append, WavHeader.length_bytes] at hbytes
    rw [hw, hriff] at hsize
    simp only [sizeofHeader, sizeofRiff, sizeofFormat, sizeofData] at hbytes
    omega
  · rintro ⟨hsize, heven⟩
    have hlt := h.riff.size.toUInt32.toNat_lt
    have hchunks : (chunksBytes (canonicalWav h.format payload heven (by omega)).chunks).length =
        32 + payload.length := by
      rw [WavFile.length_chunks]
      simp only [canonicalWav, h.format.length_body, heven]
      have hnil : (chunksBytes []).length = 0 := rfl
      omega
    refine ⟨canonicalWav h.format payload heven (by omega), ?_⟩
    rw [WavFile.bytes, hchunks, show 4 + (32 + payload.length) = h.riff.size.toUInt32.toNat by omega]
    have hfmt16 : natLE 4 h.format.body.length = int32Bytes 16 := by
      rw [h.format.length_body]
      rfl
    have hnil : chunksBytes [] = [] := rfl
    simp only [WavFile.chunks, canonicalWav, chunksBytes_cons, hnil, Chunk.bytes, hfmt16, hlen, WavHeader.bytes,
      RiffChunk.bytes, FormatChunk.bytes_eq, DataChunk.bytes, ht.stamped.riff, ht.stamped.wave,
      ht.stamped.fmt, ht.stamped.data, List.append_assoc, List.nil_append, List.append_nil]
    rfl

/-- The header that is read from a WAV file. -/
theorem readHeader_wavFile {w : WavFile} {f : File} (hread : readHeader h₀ ⟨w.bytes, 0⟩ = some (0, h, f)) :
    h.riff.size.toUInt32.toNat = sizeAt w.bytes 0 ∧
      ∃ j k, First FourCC.fmt.bytes w.bytes sizeofRiff j ∧
        First FourCC.data.bytes w.bytes (j + sizeofFormat) k ∧
        h.data.size.toUInt32.toNat = sizeAt w.bytes k := by
  obtain ⟨i, j, k, hi, hj, hk, hfit, hwave⟩ := tags_of_readHeader hread rfl
  have heq := readHeader_of_tags h₀ ⟨w.bytes, 0⟩ rfl hi hwave hj hk hfit
  rw [hread] at heq
  obtain ⟨-, heq⟩ := Prod.mk.inj (Option.some.inj heq)
  obtain ⟨rfl, -⟩ := Prod.mk.inj heq
  simp only [List.drop_zero] at hi hj hk hfit ⊢
  have hij := hi.le
  have hjk := hj.le
  have hkj := hk.le
  have hlen : (w.bytes.take bufferSize).length ≤ bufferSize := List.length_take_le _ _
  -- the file begins with its RIFF tag
  have hzero : Occurs FourCC.riff.bytes (w.bytes.take bufferSize) 0 :=
    ( occurs_of_prefix (List.take_prefix _ _) (by show 0 + 4 ≤ _; unfold sizeofData at hfit; omega)).mpr
      (riff_head List.prefix_rfl).1
  have hi₀ : i = 0 := Nat.le_zero.mp (hi.le_of_occurs le_rfl hzero)
  subst hi₀
  have hcut : ∀ off size, off + size ≤ k + sizeofData →
      ((w.bytes.take bufferSize).drop off).take size = (w.bytes.drop off).take size := fun off size hoff =>
    take_drop_take (hoff.trans (hfit.trans hlen))
  have hriff : (RiffChunk.ofBytes (((w.bytes.take bufferSize).drop 0).take sizeofRiff)).size =
      int32At ((w.bytes.drop 0).drop 4) := by
    rw [hcut 0 sizeofRiff (by omega)]
    show int32At (((w.bytes.drop 0).take sizeofRiff).drop 4) = _
    rw [int32At, take_drop_take (by decide)]
    rfl
  have hdata : (DataChunk.ofBytes (((w.bytes.take bufferSize).drop k).take sizeofData)).size =
      int32At ((w.bytes.drop k).drop 4) := by
    rw [hcut k sizeofData le_rfl, DataChunk.ofBytes_take]
    rfl
  refine ⟨?_, j, k, (first_take ?_).mp hj, (first_take ?_).mp hk, ?_⟩
  · rw [hriff, toNat_size]
  · show j + 4 ≤ _
    unfold sizeofData at hfit
    omega
  · show k + 4 ≤ _
    unfold sizeofData at hfit
    omega
  · rw [hdata, toNat_size]

/-- **The copy is a WAV file exactly when the source's sizes agree**: its RIFF size is that of a file with
nothing but the format and the data. Where the scan meets the source's own chunks, these are the files with
a `fmt ` chunk of `16` bytes, a `data` chunk of even length, and no other chunk. -/
theorem wellFormed_copy_iff (w : WavFile) {f : File} (hread : readHeader h₀ ⟨w.bytes, 0⟩ = some (0, h, f))
    (payload : List UInt8) (hlen : payload.length = h.data.size.toUInt32.toNat) :
    (WellFormed (written h payload).content ↔ SizesAgree w.bytes) ∧
      (ScanMeets w.bytes w.fmtOff w.dataOff →
        (WellFormed (written h payload).content ↔ w.before = [] ∧ w.fmt.body.length = 16 ∧ w.between = [] ∧
          w.data.body.length % 2 = 0 ∧ w.after = [])) := by
  have hcopy : WellFormed (written h payload).content ↔ SizesAgree w.bytes := by
    rw [content_written, wellFormed_stamped (tagged_of_readHeader hread) hlen]
    obtain ⟨hriff, j, k, hj, hk, hdata⟩ := readHeader_wavFile hread
    have heven := chunksBytes_even w.chunks
    rw [hriff, hlen, hdata]
    constructor
    · exact fun hsizes => ⟨j, k, hj, hk, hsizes.1⟩
    · rintro ⟨j', k', hj', hk', hsizes⟩
      rw [hj'.unique hj] at hk'
      rw [hk'.unique hk] at hsizes
      refine ⟨hsizes, ?_⟩
      rw [w.sizeAt_zero] at hsizes
      omega
  exact ⟨hcopy, fun hscan => hcopy.trans (sizesAgree_iff w hscan)⟩

/-- The plain file's header. -/
def plainHeader : WavHeader :=
  ⟨⟨.riff, 38, .wave⟩, ⟨.fmt, 16, 257, 257, 16843009, 16843009, 257, 257⟩, ⟨.data, 2⟩⟩

theorem wellFormed_copy_iff_plain :
    (WellFormed (written plainHeader [7, 8]).content ↔ SizesAgree plainWav.bytes) ∧
      (ScanMeets plainWav.bytes plainWav.fmtOff plainWav.dataOff →
        (WellFormed (written plainHeader [7, 8]).content ↔ plainWav.before = [] ∧
          plainWav.fmt.body.length = 16 ∧ plainWav.between = [] ∧ plainWav.data.body.length % 2 = 0 ∧
          plainWav.after = [])) :=
  wellFormed_copy_iff plainWav (show readHeader tagsOnly ⟨plainWav.bytes, 0⟩ =
    some (0, plainHeader, ⟨plainWav.bytes, 44⟩) by decide) [7, 8] (by decide)

/-- An empty chunk has no pad byte. -/
theorem length_pad_nil : ([] : List UInt8).length = ([] : List UInt8).length % 2 := rfl

/-- The plain file with an empty `LIST` chunk behind its `data` chunk. -/
def trailedWav : WavFile :=
  { plainWav with
    after := [⟨⟨76, 73, 83, 84⟩, [], [], by decide, length_pad_nil⟩]
    size_lt := by decide }

/-- The header of that file. -/
def trailedHeader : WavHeader := { plainHeader with riff := ⟨.riff, 46, .wave⟩ }

/-- Its copy announces eight bytes more than it has. -/
theorem not_wellFormed_copy_trailed : ¬ ∀ (w : WavFile) (h₀ h : WavHeader) (f : File),
    readHeader h₀ ⟨w.bytes, 0⟩ = some (0, h, f) → ∀ payload : List UInt8,
      payload.length = h.data.size.toUInt32.toNat → WellFormed (written h payload).content := by
  intro hall
  have hcopy := hall trailedWav tagsOnly trailedHeader ⟨trailedWav.bytes, 44⟩ (by decide) [7, 8] (by decide)
  rw [content_written, wellFormed_stamped ⟨rfl, rfl, rfl, rfl⟩ (by decide)] at hcopy
  exact absurd hcopy (by decide)

end AudioProcess
