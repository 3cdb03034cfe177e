import AudioProcess.Wav.Scan

/-!
# The prefixes that `read_header` accepts

`File.window` is what `read_header` reads of a file, `n = min(256, bytes available)` bytes.

* `Tagged`: the three tags stand in the window, in order, each with its struct behind it;
  `Tagged.unique`: in one way only;
* **`readHeader_tagged`**: `read_header` returns `0` exactly on such windows, and reads no byte outside
  any window.
-/

namespace AudioProcess

open Bytes

/-- The bytes that `read_header` reads into its buffer. -/
def File.window (file : File) : List UInt8 := (file.content.drop file.pos).take bufferSize

theorem File.length_window (file : File) : file.window.length = min 256 (file.content.length - file.pos) := by
  rw [window, List.length_take, List.length_drop]
  rfl

/-- `RIFF` first stands at `i`, with `WAVE` behind its size; `fmt ` first stands at `j` from the end of that
struct on, and `data` first at `k` from the end of the format on; and all three structs fit. -/
structure Tagged (buf : List UInt8) (i j k : ℕ) : Prop where
  riff : First FourCC.riff.bytes buf 0 i
  riff_fits : i + 12 ≤ buf.length
  wave : (buf.drop (i + 8)).take 4 = FourCC.wave.bytes
  fmt : First FourCC.fmt.bytes buf (i + 12) j
  fmt_fits : j + 24 ≤ buf.length
  data : First FourCC.data.bytes buf (j + 24) k
  data_fits : k + 8 ≤ buf.length

variable {buf : List UInt8} {i j k i' j' k' : ℕ}

theorem Tagged.unique (h : Tagged buf i j k) (h' : Tagged buf i' j' k') : i = i' ∧ j = j' ∧ k = k' := by
  obtain rfl := h.riff.unique h'.riff
  obtain rfl := h.fmt.unique h'.fmt
  exact ⟨rfl, rfl, h.data.unique h'.data⟩

/-- A tag in a struct and its four bytes. -/
theorem FourCC.ofBytes_eq_iff {s : List UInt8} (hs : 4 ≤ s.length) (t : FourCC) :
    FourCC.ofBytes s = t ↔ s.take 4 = t.bytes := by
  rw [← bytes_ofBytes hs]
  constructor
  · rintro rfl
    rfl
  · intro h
    simp only [bytes, List.cons.injEq, and_true] at h
    obtain ⟨h₀, h₁, h₂, h₃⟩ := h
    exact congr (congr (congrArg₂ FourCC.mk h₀ h₁) h₂) h₃

/-- The type of the RIFF struct at `i`. -/
theorem riff_type_eq_iff (hfit : i + 12 ≤ buf.length) :
    (RiffChunk.ofBytes ((buf.drop i).take sizeofRiff)).type = .wave ↔
      (buf.drop (i + 8)).take 4 = FourCC.wave.bytes := by
  have hdrop : ((buf.drop i).take sizeofRiff).drop 8 = (buf.drop (i + 8)).take 4 := by
    rw [List.drop_take, List.drop_drop]
    rfl
  have hlen : ((buf.drop (i + 8)).take 4).length = 4 := by
    rw [List.length_take, List.length_drop]
    omega
  show FourCC.ofBytes (((buf.drop i).take sizeofRiff).drop 8) = .wave ↔ _
  rw [hdrop, FourCC.ofBytes_eq_iff hlen.ge, List.take_take, Nat.min_self]

/-- The tags in order are those of a tagged window. -/
theorem tagged_iff : Tagged buf i j k ↔ First FourCC.riff.bytes buf 0 i ∧
    First FourCC.fmt.bytes buf (i + sizeofRiff) j ∧ First FourCC.data.bytes buf (j + sizeofFormat) k ∧
    k + sizeofData ≤ buf.length ∧ (RiffChunk.ofBytes ((buf.drop i).take sizeofRiff)).type = .wave := by
  constructor
  · intro h
    exact ⟨h.riff, h.fmt, h.data, h.data_fits, (riff_type_eq_iff h.riff_fits).mpr h.wave⟩
  · rintro ⟨hi, hj, hk, hfit, hwave⟩
    have hij : i + 12 ≤ j := hj.le
    have hjk : j + 24 ≤ k := hk.le
    have hkfit : k + 8 ≤ buf.length := hfit
    have hifit : i + 12 ≤ buf.length := by omega
    exact ⟨hi, hifit, (riff_type_eq_iff hifit).mp hwave, hj, by omega, hk, hkfit⟩

/-- **`read_header` accepts exactly the tagged windows.** There it returns `0`, the three structs are the
bytes behind the tags, and the position is the end of the last one; on any other window it returns `-1`. It
always returns, so it never reads a byte outside the window. -/
theorem readHeader_tagged (header : WavHeader) (file : File) :
    ∃ r h f, readHeader header file = some (r, h, f) ∧
      ((r = 0 ∧ ∃ i j k, Tagged file.window i j k ∧
          h.riff.bytes = (file.window.drop i).take 12 ∧
          h.format.bytes = (file.window.drop j).take 24 ∧
          h.data.bytes = (file.window.drop k).take 8 ∧
          f = { file with pos := file.pos + (k + 8) }) ∨
        r = -1 ∧ ¬ ∃ i j k, Tagged file.window i j k) := by
  by_cases htagged : ∃ i j k, Tagged file.window i j k
  · obtain ⟨i, j, k, ht⟩ := htagged
    obtain ⟨hi, hj, hk, hfit, hwave⟩ := tagged_iff.mp ht
    have hlen : ∀ p m, p + m ≤ file.window.length → m ≤ ((file.window.drop p).take m).length := by
      intro p m hpm
      rw [List.length_take, List.length_drop]
      omega
    have htake : ∀ p m, ((file.window.drop p).take m).take m = (file.window.drop p).take m := by
      intro p m
      rw [List.take_take, Nat.min_self]
    refine ⟨_, _, _, readHeader_of_tags header file rfl hi hwave hj hk hfit, Or.inl ⟨rfl, i, j, k, ht, ?_, ?_, ?_, rfl⟩⟩
    · exact (RiffChunk.bytes_ofBytes (hlen i 12 ht.riff_fits)).trans (htake i 12)
    · exact (FormatChunk.bytes_ofBytes (hlen j 24 ht.fmt_fits)).trans (htake j 24)
    · exact (DataChunk.bytes_ofBytes (hlen k 8 ht.data_fits)).trans (htake k 8)
  · rcases readHeader_cases header file rfl with ⟨i, j, k, htags⟩ | ⟨h, f, hfail⟩
    · exact absurd ⟨i, j, k, tagged_iff.mpr htags⟩ htagged
    · exact ⟨-1, h, f, hfail, Or.inr ⟨rfl, htagged⟩⟩

end AudioProcess
