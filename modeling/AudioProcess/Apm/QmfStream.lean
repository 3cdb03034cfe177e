import AudioProcess.Apm.Qmf
import AudioProcess.Lib.Mem
import Mathlib.Data.List.GetD

/-!
# The filter bank on streams

* `analysisFrames`, `synthesisFrames`: the calls for the frames of a stream, each with its own garbage in the local
  arrays;
* `lowSignal`, `highSignal`, `fullSignal`: the bands of a whole signal, and the full band of two whole bands;
* `analysed_append`, `lowBandOf_append_right`, …: where a frame stops, the next one goes on;
* **`analysisFrames_eq`**, **`synthesisFrames_eq`**: however a stream is cut into frames, nothing overflows, and the
  result is that of the whole signal.
-/

namespace AudioProcess

open Allpass CInt Mem

/-- The memory behind the samples of a list. -/
def cellsOf (l : List Int16) (k : ℕ) : Int16 := l.getD k 0

/-- `WebRtcSpl_AnalysisQMF` on frame after frame: the branches and the two bands. -/
def analysisFrames (s : Branches) : List (QmfLocals × List Int16) → Option (Branches × List Int16 × List Int16)
  | [] => some (s, [], [])
  | (junk, frame) :: frames => do
    let (low, high, one, two) ← analysisQMF junk (cellsOf frame) frame.length (fun _ => 0) (fun _ => 0) s.one s.two
    let (s, lows, highs) ← analysisFrames ⟨one, two⟩ frames
    return (s, readCells low 0 (frame.length / 2) ++ lows, readCells high 0 (frame.length / 2) ++ highs)

/-- `WebRtcSpl_SynthesisQMF` on frame after frame, of which each is a low and a high band: the branches and the full
band. -/
def synthesisFrames (s : Branches) :
    List (QmfLocals × List Int16 × List Int16) → Option (Branches × List Int16)
  | [] => some (s, [])
  | (junk, low, high) :: frames => do
    let (out, one, two) ← synthesisQMF junk (cellsOf low) (cellsOf high) low.length (fun _ => 0) s.one s.two
    let (s, outs) ← synthesisFrames ⟨one, two⟩ frames
    return (s, readCells out 0 (2 * low.length) ++ outs)

/-- The low band of a whole signal. -/
def lowSignal (s : Branches) (signal : List Int16) : List Int16 :=
  (List.range (signal.length / 2)).map (lowBandOf s (cellsOf signal))

/-- The high band of a whole signal. -/
def highSignal (s : Branches) (signal : List Int16) : List Int16 :=
  (List.range (signal.length / 2)).map (highBandOf s (cellsOf signal))

/-- The full band of two whole bands. -/
def fullSignal (s : Branches) (low high : List Int16) : List Int16 :=
  (List.range (2 * low.length)).map (fullBandOf s (cellsOf low) (cellsOf high))

/-! ## One frame and the rest -/

section Cells

variable {l l' : List Int16} {k : ℕ}

theorem cellsOf_append_left (h : k < l.length) : cellsOf (l ++ l') k = cellsOf l k :=
  List.getD_append _ _ _ _ h

theorem cellsOf_append_right (l l' : List Int16) (k : ℕ) : cellsOf (l ++ l') (l.length + k) = cellsOf l' k := by
  unfold cellsOf
  rw [List.getD_append_right _ _ _ _ (Nat.le_add_right ..), Nat.add_sub_cancel_left]

theorem cellsOf_map_range (f : ℕ → Int16) {n k : ℕ} (hk : k < n) : cellsOf ((List.range n).map f) k = f k := by
  simp [cellsOf, hk]

theorem cellsOf_readCells (m : ℕ → Int16) {n k : ℕ} (hk : k < n) : cellsOf (readCells m 0 n) k = m k := by
  rw [readCells, cellsOf_map_range _ hk, Nat.zero_add]

/-- A table that begins as one and goes on as another. -/
theorem map_range_add {α : Type*} {f g h : ℕ → α} {n : ℕ} (hf : ∀ k < n, f k = g k) (hg : ∀ k, f (n + k) = h k)
    (m : ℕ) : (List.range (n + m)).map f = (List.range n).map g ++ (List.range m).map h := by
  rw [List.range_add, List.map_append, List.map_map, show f ∘ (n + ·) = h from funext hg]
  congr 1
  exact List.map_congr_left fun k hk => hf k (List.mem_range.mp hk)

/-- What a call wrote into the first cells. -/
theorem readCells_prefix (f m : ℕ → Int16) (n : ℕ) :
    readCells (fun k => if k < n then f k else m k) 0 n = (List.range n).map f := by
  refine List.map_congr_left fun k hk => ?_
  simp [List.mem_range.mp hk]

end Cells

section Analysis

variable {s : Branches} {frame rest : List Int16} {n : ℕ} (hlen : frame.length = 2 * n)
include hlen

theorem oddHalf_append_left {k : ℕ} (hk : k < n) :
    oddHalf (cellsOf (frame ++ rest)) k = oddHalf (cellsOf frame) k := by
  rw [oddHalf, oddHalf, cellsOf_append_left (by omega)]

theorem evenHalf_append_left {k : ℕ} (hk : k < n) :
    evenHalf (cellsOf (frame ++ rest)) k = evenHalf (cellsOf frame) k := by
  rw [evenHalf, evenHalf, cellsOf_append_left (by omega)]

theorem oddHalf_append_right (k : ℕ) :
    oddHalf (cellsOf (frame ++ rest)) (n + k) = oddHalf (cellsOf rest) k := by
  rw [oddHalf, oddHalf, ← cellsOf_append_right frame rest, hlen, Nat.mul_add, Nat.add_assoc]

theorem evenHalf_append_right (k : ℕ) :
    evenHalf (cellsOf (frame ++ rest)) (n + k) = evenHalf (cellsOf rest) k := by
  rw [evenHalf, evenHalf, ← cellsOf_append_right frame rest, hlen, Nat.mul_add]

/-- **Where the analysis of a frame stops, that of the next one goes on.** -/
theorem analysed_append (m : ℕ) :
    analysed s (cellsOf (frame ++ rest)) (n + m) = analysed (analysed s (cellsOf frame) n) (cellsOf rest) m := by
  simp only [analysed, cascadeState_cut (fun k hk => oddHalf_append_left hlen hk) (oddHalf_append_right hlen),
    cascadeState_cut (fun k hk => evenHalf_append_left hlen hk) (evenHalf_append_right hlen)]

theorem lowBandOf_append_left {k : ℕ} (hk : k < n) :
    lowBandOf s (cellsOf (frame ++ rest)) k = lowBandOf s (cellsOf frame) k := by
  rw [lowBandOf, cascade_congr fun j hj => oddHalf_append_left hlen (by omega),
    cascade_congr fun j hj => evenHalf_append_left hlen (by omega)]
  rfl

theorem highBandOf_append_left {k : ℕ} (hk : k < n) :
    highBandOf s (cellsOf (frame ++ rest)) k = highBandOf s (cellsOf frame) k := by
  rw [highBandOf, cascade_congr fun j hj => oddHalf_append_left hlen (by omega),
    cascade_congr fun j hj => evenHalf_append_left hlen (by omega)]
  rfl

theorem lowBandOf_append_right (k : ℕ) : lowBandOf s (cellsOf (frame ++ rest)) (n + k) =
    lowBandOf (analysed s (cellsOf frame) n) (cellsOf rest) k := by
  rw [lowBandOf, cascade_cut (fun k hk => oddHalf_append_left hlen hk) (oddHalf_append_right hlen),
    cascade_cut (fun k hk => evenHalf_append_left hlen hk) (evenHalf_append_right hlen)]
  rfl

theorem highBandOf_append_right (k : ℕ) : highBandOf s (cellsOf (frame ++ rest)) (n + k) =
    highBandOf (analysed s (cellsOf frame) n) (cellsOf rest) k := by
  rw [highBandOf, cascade_cut (fun k hk => oddHalf_append_left hlen hk) (oddHalf_append_right hlen),
    cascade_cut (fun k hk => evenHalf_append_left hlen hk) (evenHalf_append_right hlen)]
  rfl

theorem lowSignal_append {m : ℕ} (hrest : rest.length = 2 * m) :
    lowSignal s (frame ++ rest) = lowSignal s frame ++ lowSignal (analysed s (cellsOf frame) n) rest := by
  have hsum : (frame ++ rest).length / 2 = n + m := by
    rw [List.length_append]
    omega
  rw [lowSignal, hsum, lowSignal, lowSignal, show frame.length / 2 = n by omega, show rest.length / 2 = m by omega]
  exact map_range_add (fun k hk => lowBandOf_append_left hlen hk) (lowBandOf_append_right hlen) m

theorem highSignal_append {m : ℕ} (hrest : rest.length = 2 * m) :
    highSignal s (frame ++ rest) = highSignal s frame ++ highSignal (analysed s (cellsOf frame) n) rest := by
  have hsum : (frame ++ rest).length / 2 = n + m := by
    rw [List.length_append]
    omega
  rw [highSignal, hsum, highSignal, highSignal, show frame.length / 2 = n by omega, show rest.length / 2 = m by omega]
  exact map_range_add (fun k hk => highBandOf_append_left hlen hk) (highBandOf_append_right hlen) m

end Analysis

section Synthesis

variable {s : Branches} {low high low' high' : List Int16} {n : ℕ} (hlow : low.length = n) (hhigh : high.length = n)
include hlow hhigh

theorem sumHalf_append_left {k : ℕ} (hk : k < n) :
    sumHalf (cellsOf (low ++ low')) (cellsOf (high ++ high')) k = sumHalf (cellsOf low) (cellsOf high) k := by
  rw [sumHalf, sumHalf, cellsOf_append_left (by omega), cellsOf_append_left (by omega)]

theorem diffHalf_append_left {k : ℕ} (hk : k < n) :
    diffHalf (cellsOf (low ++ low')) (cellsOf (high ++ high')) k = diffHalf (cellsOf low) (cellsOf high) k := by
  rw [diffHalf, diffHalf, cellsOf_append_left (by omega), cellsOf_append_left (by omega)]

theorem sumHalf_append_right (k : ℕ) :
    sumHalf (cellsOf (low ++ low')) (cellsOf (high ++ high')) (n + k) = sumHalf (cellsOf low') (cellsOf high') k := by
  rw [sumHalf, sumHalf, ← cellsOf_append_right low low', ← cellsOf_append_right high high', hlow, hhigh]

theorem diffHalf_append_right (k : ℕ) :
    diffHalf (cellsOf (low ++ low')) (cellsOf (high ++ high')) (n + k) = diffHalf (cellsOf low') (cellsOf high') k := by
  rw [diffHalf, diffHalf, ← cellsOf_append_right low low', ← cellsOf_append_right high high', hlow, hhigh]

/-- **Where the synthesis of a frame stops, that of the next one goes on.** -/
theorem synthesised_append (m : ℕ) :
    synthesised s (cellsOf (low ++ low')) (cellsOf (high ++ high')) (n + m) =
      synthesised (synthesised s (cellsOf low) (cellsOf high) n) (cellsOf low') (cellsOf high') m := by
  simp only [synthesised,
    cascadeState_cut (fun k hk => sumHalf_append_left hlow hhigh hk) (sumHalf_append_right hlow hhigh),
    cascadeState_cut (fun k hk => diffHalf_append_left hlow hhigh hk) (diffHalf_append_right hlow hhigh)]

theorem fullBandOf_append_left {k : ℕ} (hk : k < 2 * n) :
    fullBandOf s (cellsOf (low ++ low')) (cellsOf (high ++ high')) k = fullBandOf s (cellsOf low) (cellsOf high) k := by
  rw [fullBandOf, cascade_congr fun j hj => sumHalf_append_left hlow hhigh (by omega),
    cascade_congr fun j hj => diffHalf_append_left hlow hhigh (by omega)]
  rfl

theorem fullBandOf_append_right (k : ℕ) :
    fullBandOf s (cellsOf (low ++ low')) (cellsOf (high ++ high')) (2 * n + k) =
      fullBandOf (synthesised s (cellsOf low) (cellsOf high) n) (cellsOf low') (cellsOf high') k := by
  rw [fullBandOf, show (2 * n + k) / 2 = n + k / 2 by omega, show (2 * n + k) % 2 = k % 2 by omega,
    cascade_cut (fun k hk => sumHalf_append_left hlow hhigh hk) (sumHalf_append_right hlow hhigh),
    cascade_cut (fun k hk => diffHalf_append_left hlow hhigh hk) (diffHalf_append_right hlow hhigh)]
  rfl

theorem fullSignal_append : fullSignal s (low ++ low') (high ++ high') =
    fullSignal s low high ++ fullSignal (synthesised s (cellsOf low) (cellsOf high) n) low' high' := by
  rw [fullSignal, fullSignal, fullSignal, List.length_append, hlow, Nat.mul_add]
  exact map_range_add (fun k hk => fullBandOf_append_left hlow hhigh hk) (fullBandOf_append_right hlow hhigh) _

end Synthesis

/-! ## Streams -/

/-- The frames that a filter bank can take: an even number of samples, up to `2 * kMaxBandFrameLength`. -/
def IsFrame (frame : List Int16) : Prop := ∃ n, 0 < n ∧ n ≤ kMaxBandFrameLength ∧ frame.length = 2 * n

/-- The bands of a frame that a filter bank can take. -/
def AreBands (low high : List Int16) : Prop :=
  0 < low.length ∧ low.length ≤ kMaxBandFrameLength ∧ high.length = low.length

/-- The signal of the frames. -/
def signalOf (frames : List (QmfLocals × List Int16)) : List Int16 := (frames.map Prod.snd).flatten

/-- The low band of the frames. -/
def lowOf (frames : List (QmfLocals × List Int16 × List Int16)) : List Int16 := (frames.map fun f => f.2.1).flatten

/-- The high band of the frames. -/
def highOf (frames : List (QmfLocals × List Int16 × List Int16)) : List Int16 := (frames.map fun f => f.2.2).flatten

/-- The analysis of a stream from reachable branches. -/
theorem analysisFrames_spec {s : Branches} (hs : s.Analysing) {frames : List (QmfLocals × List Int16)}
    (hframes : ∀ f ∈ frames, IsFrame f.2) :
    ∃ m, (signalOf frames).length = 2 * m ∧ analysisFrames s frames =
      some (analysed s (cellsOf (signalOf frames)) m, lowSignal s (signalOf frames), highSignal s (signalOf frames)) := by
  induction frames generalizing s with
  | nil => exact ⟨0, rfl, rfl⟩
  | cons f frames ih =>
      obtain ⟨n, hn, hmax, hlen⟩ := hframes f List.mem_cons_self
      obtain ⟨m, hm, hrest⟩ := ih (hs.analysed (x := cellsOf f.2) (n := n)) fun f' hf' =>
        hframes f' (List.mem_cons_of_mem _ hf')
      have hsignal : signalOf (f :: frames) = f.2 ++ signalOf frames := rfl
      have hlow : lowSignal s f.2 = (List.range n).map (lowBandOf s (cellsOf f.2)) := by
        rw [lowSignal, hlen, Nat.mul_div_cancel_left n (by decide)]
      have hhigh : highSignal s f.2 = (List.range n).map (highBandOf s (cellsOf f.2)) := by
        rw [highSignal, hlen, Nat.mul_div_cancel_left n (by decide)]
      refine ⟨n + m, by rw [hsignal, List.length_append, hlen, hm]; ring, ?_⟩
      rw [hsignal, analysed_append hlen, lowSignal_append hlen hm, highSignal_append hlen hm, hlow, hhigh]
      simp only [analysisFrames, hlen, Nat.mul_div_cancel_left n (show 0 < 2 by decide),
        analysisQMF_eq f.1 hs hn hmax, Option.bind_eq_bind, Option.bind_some, hrest, readCells_prefix]
      rfl

/-- The synthesis of a stream from reachable branches. -/
theorem synthesisFrames_spec {s : Branches} (hs : s.Synthesising)
    {frames : List (QmfLocals × List Int16 × List Int16)} (hframes : ∀ f ∈ frames, AreBands f.2.1 f.2.2) :
    synthesisFrames s frames =
      some (synthesised s (cellsOf (lowOf frames)) (cellsOf (highOf frames)) (lowOf frames).length,
        fullSignal s (lowOf frames) (highOf frames)) := by
  induction frames generalizing s with
  | nil => rfl
  | cons f frames ih =>
      obtain ⟨hpos, hmax, hlen⟩ := hframes f List.mem_cons_self
      have hs' : (synthesised s (cellsOf f.2.1) (cellsOf f.2.2) f.2.1.length).Synthesising := hs.synthesised
      have hrest := ih hs' fun f' hf' => hframes f' (List.mem_cons_of_mem _ hf')
      have hlow : lowOf (f :: frames) = f.2.1 ++ lowOf frames := rfl
      have hhigh : highOf (f :: frames) = f.2.2 ++ highOf frames := rfl
      rw [hlow, hhigh, List.length_append, synthesised_append rfl hlen, fullSignal_append rfl hlen]
      simp only [synthesisFrames, synthesisQMF_eq f.1 _ hs hpos hmax, Option.bind_eq_bind, Option.bind_some, hrest,
        readCells_prefix]
      rfl

/-- **The analysis does not see the frames.** However a stream is cut into frames and whatever the local arrays hold, no
operation overflows and no access leaves an array, and the bands are those of the whole signal. -/
theorem analysisFrames_eq (frames : List (QmfLocals × List Int16)) (hframes : ∀ f ∈ frames, IsFrame f.2) :
    (analysisFrames .zero frames).map Prod.snd =
      some (lowSignal .zero (signalOf frames), highSignal .zero (signalOf frames)) := by
  obtain ⟨m, -, hrun⟩ := analysisFrames_spec Branches.analysing_zero hframes
  rw [hrun]
  rfl

/-- A signal of four samples in two frames. -/
theorem analysisFrames_eq_four : (analysisFrames .zero [(⟨fun _ => 1, fun _ => 2, fun _ => 3, fun _ => 4⟩, [100, 200]),
      (⟨fun _ => 0, fun _ => 0, fun _ => 0, fun _ => 0⟩, [300, -400])]).map Prod.snd =
    some (lowSignal .zero [100, 200, 300, -400], highSignal .zero [100, 200, 300, -400]) := by
  refine analysisFrames_eq _ fun f hf => ?_
  rcases List.mem_pair.mp hf with rfl | rfl <;> exact ⟨1, by decide, by decide, rfl⟩

/-- **The synthesis does not see the frames.** However two bands are cut into frames and whatever the local arrays hold,
no operation overflows and no access leaves an array, and the full band is that of the whole bands. -/
theorem synthesisFrames_eq (frames : List (QmfLocals × List Int16 × List Int16))
    (hframes : ∀ f ∈ frames, AreBands f.2.1 f.2.2) :
    (synthesisFrames .zero frames).map Prod.snd = some (fullSignal .zero (lowOf frames) (highOf frames)) := by
  rw [synthesisFrames_spec Branches.synthesising_zero hframes]
  rfl

/-- Two bands of two samples in two frames. -/
theorem synthesisFrames_eq_two : (synthesisFrames .zero
      [(⟨fun _ => 1, fun _ => 2, fun _ => 3, fun _ => 4⟩, [100], [200]),
        (⟨fun _ => 0, fun _ => 0, fun _ => 0, fun _ => 0⟩, [300], [-400])]).map Prod.snd =
    some (fullSignal .zero [100, 300] [200, -400]) := by
  refine synthesisFrames_eq _ fun f hf => ?_
  rcases List.mem_pair.mp hf with rfl | rfl <;> exact ⟨by decide, by decide, rfl⟩

end AudioProcess
