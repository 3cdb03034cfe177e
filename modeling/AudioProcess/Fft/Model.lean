import AudioProcess.Denoise.Handle
import AudioProcess.Lib.While

/-!
# The FFT library (`common/kiss_fft/kiss_fft.c`, `kiss_fftr.c`)

The floating-point build. `Fout`, `f` and the other pointers of the source are a memory and an offset into it.

* `Cpx.mul`, …: the macros of `_kiss_fft_guts.h`;
* `kfFactorTurn`, `kfFactor`; `KissFftState`, `kissFftAlloc`;
* `kfBfly2`, `kfBfly3`, `kfBfly4`, `kfBfly5`, `kfBflyGeneric`, `kfBfly`; `kfWork`, `kissFft`;
* `KissFftrState`, `Fft.kissFftrAlloc`, `kissFftr`, `kissFftri`;
* `nextFastTurn`: the loop of `kiss_fft_next_fast_size`.
-/

namespace AudioProcess

open CFloat CLoop Mem While

variable {F : Type}

/-! ## Complex numbers -/

namespace Cpx

variable [CFloat F]

/-- `C_MUL`. -/
def mul (a b : Cpx F) : Cpx F := ⟨a.r * b.r - a.i * b.i, a.r * b.i + a.i * b.r⟩

/-- `C_ADD`, and `C_ADDTO`. -/
def add (a b : Cpx F) : Cpx F := ⟨a.r + b.r, a.i + b.i⟩

/-- `C_SUB`. -/
def sub (a b : Cpx F) : Cpx F := ⟨a.r - b.r, a.i - b.i⟩

/-- `C_MULBYSCALAR`. -/
def mulByScalar (a : Cpx F) (s : F) : Cpx F := ⟨a.r * s, a.i * s⟩

end Cpx

/-- `HALF_OF`. -/
def halfOf [CFloat F] (x : F) : F := x * ofRat 0.5

/-- `kf_cexp`. -/
def kfCexp [CTrig F] (phase : F) : Cpx F := ⟨cos phase, CTrig.sin phase⟩

/-! ## Factors -/

/-- The next radix that `kf_factor` tries, before it looks at `floor_sqrt`. -/
def nextRadix (p : ℕ) : ℕ := if p = 4 then 2 else if p = 2 then 3 else p + 2

/-- What `kf_factor` holds: the rest of the number, the radix, and what it has written. -/
structure KfFactor where
  n : ℕ
  p : ℕ
  facbuf : List (ℕ × ℕ)

/-- One turn of the inner loop of `kf_factor` where its condition holds, and else one of the outer loop. -/
def kfFactorTurn (floorSqrt : ℕ) (s : KfFactor) : TurnEnd KfFactor :=
  if s.n % s.p ≠ 0 then
    let p := nextRadix s.p
    .next { s with p := if p > floorSqrt then s.n else p }
  else
    let n := s.n / s.p
    let s := { s with n := n, facbuf := s.facbuf ++ [(s.p, n)] }
    if n > 1 then .next s else .leave s

/-- `kf_factor`: the radices, each with the length of its stage over the radix. -/
def kfFactor (n : ℕ) : List (ℕ × ℕ) :=
  match whileLoop (kfFactorTurn n.sqrt) (3 * n + 6) ⟨n, 4, []⟩ with
  | some (.ended s) => s.facbuf
  | _ => []

/-- `struct kiss_fft_state`. -/
structure KissFftState (F : Type) where
  nfft : ℕ
  inverse : Bool
  factors : List (ℕ × ℕ)
  twiddles : ℕ → Cpx F

/-- `kiss_fft_alloc`, when it finds memory, which holds the twiddle factors `junk`. -/
def kissFftAlloc [CTrig F] (nfft : ℕ) (inverse : Bool) (junk : ℕ → Cpx F) : KissFftState F where
  nfft := nfft
  inverse := inverse
  factors := kfFactor nfft
  twiddles := forLoop 0 nfft (fun i twiddles =>
    let phase : F := ofRat (-2) * pi * ofNat i / ofNat nfft
    let phase := if inverse then phase * ofRat (-1) else phase
    Function.update twiddles i (kfCexp phase)) junk

/-! ## Butterflies -/

section Transform

variable [CFloat F] (st : KissFftState F)

/-- `kf_bfly2` at `k`, with `Fout` at `o`. -/
def kfBfly2 (fstride m k o : ℕ) (mem : ℕ → Cpx F) : ℕ → Cpx F :=
  let t := (mem (o + m)).mul (st.twiddles (k * fstride))
  let mem := Function.update mem (o + m) ((mem o).sub t)
  Function.update mem o ((mem o).add t)

/-- `kf_bfly3` at `k`. -/
def kfBfly3 (fstride m k o : ℕ) (mem : ℕ → Cpx F) : ℕ → Cpx F :=
  let epi3 := st.twiddles (fstride * m)
  let s₁ := (mem (o + m)).mul (st.twiddles (k * fstride))
  let s₂ := (mem (o + 2 * m)).mul (st.twiddles (k * (fstride * 2)))
  let s₃ := s₁.add s₂
  let s₀ := s₁.sub s₂
  let half : Cpx F := ⟨(mem o).r - halfOf s₃.r, (mem o).i - halfOf s₃.i⟩
  let mem := Function.update mem (o + m) half
  let s₀ := s₀.mulByScalar epi3.i
  let mem := Function.update mem o ((mem o).add s₃)
  let mem := Function.update mem (o + 2 * m) ⟨(mem (o + m)).r + s₀.i, (mem (o + m)).i - s₀.r⟩
  Function.update mem (o + m) ⟨(mem (o + m)).r - s₀.i, (mem (o + m)).i + s₀.r⟩

/-- `kf_bfly4` at `k`. -/
def kfBfly4 (fstride m k o : ℕ) (mem : ℕ → Cpx F) : ℕ → Cpx F :=
  let s₀ := (mem (o + m)).mul (st.twiddles (k * fstride))
  let s₁ := (mem (o + 2 * m)).mul (st.twiddles (k * (fstride * 2)))
  let s₂ := (mem (o + 3 * m)).mul (st.twiddles (k * (fstride * 3)))
  let s₅ := (mem o).sub s₁
  let mem := Function.update mem o ((mem o).add s₁)
  let s₃ := s₀.add s₂
  let s₄ := s₀.sub s₂
  let mem := Function.update mem (o + 2 * m) ((mem o).sub s₃)
  let mem := Function.update mem o ((mem o).add s₃)
  if st.inverse then
    let mem := Function.update mem (o + m) ⟨s₅.r - s₄.i, s₅.i + s₄.r⟩
    Function.update mem (o + 3 * m) ⟨s₅.r + s₄.i, s₅.i - s₄.r⟩
  else
    let mem := Function.update mem (o + m) ⟨s₅.r + s₄.i, s₅.i - s₄.r⟩
    Function.update mem (o + 3 * m) ⟨s₅.r - s₄.i, s₅.i + s₄.r⟩

/-- `kf_bfly5` at `u`. -/
def kfBfly5 (fstride m u o : ℕ) (mem : ℕ → Cpx F) : ℕ → Cpx F :=
  let ya := st.twiddles (fstride * m)
  let yb := st.twiddles (fstride * 2 * m)
  let s₀ := mem o
  let s₁ := (mem (o + m)).mul (st.twiddles (u * fstride))
  let s₂ := (mem (o + 2 * m)).mul (st.twiddles (2 * u * fstride))
  let s₃ := (mem (o + 3 * m)).mul (st.twiddles (3 * u * fstride))
  let s₄ := (mem (o + 4 * m)).mul (st.twiddles (4 * u * fstride))
  let s₇ := s₁.add s₄
  let s₁₀ := s₁.sub s₄
  let s₈ := s₂.add s₃
  let s₉ := s₂.sub s₃
  let mem := Function.update mem o ⟨(mem o).r + (s₇.r + s₈.r), (mem o).i + (s₇.i + s₈.i)⟩
  let s₅ : Cpx F := ⟨s₀.r + s₇.r * ya.r + s₈.r * yb.r, s₀.i + s₇.i * ya.r + s₈.i * yb.r⟩
  let s₆ : Cpx F := ⟨s₁₀.i * ya.i + s₉.i * yb.i, -(s₁₀.r * ya.i) - s₉.r * yb.i⟩
  let mem := Function.update mem (o + m) (s₅.sub s₆)
  let mem := Function.update mem (o + 4 * m) (s₅.add s₆)
  let s₁₁ : Cpx F := ⟨s₀.r + s₇.r * yb.r + s₈.r * ya.r, s₀.i + s₇.i * yb.r + s₈.i * ya.r⟩
  let s₁₂ : Cpx F := ⟨-(s₁₀.i * yb.i) + s₉.i * ya.i, s₁₀.r * yb.i - s₉.r * ya.i⟩
  let mem := Function.update mem (o + 2 * m) (s₁₁.add s₁₂)
  Function.update mem (o + 3 * m) (s₁₁.sub s₁₂)

/-- The sum for the cell `k` in `kf_bfly_generic`, with its index into the twiddle factors. -/
def genericSum (fstride p k : ℕ) (scratch : ℕ → Cpx F) : Cpx F × ℕ :=
  forLoop 1 p (fun q s =>
    let twidx := s.2 + fstride * k
    let twidx := if twidx ≥ st.nfft then twidx - st.nfft else twidx
    (s.1.add ((scratch q).mul (st.twiddles twidx)), twidx)) (scratch 0, 0)

/-- `kf_bfly_generic` at `u`. -/
def kfBflyGeneric (fstride m p u out : ℕ) (mem : ℕ → Cpx F) : ℕ → Cpx F :=
  -- `scratch[q1] = Fout[u + q1 * m]`, before any of them is overwritten
  let scratch : ℕ → Cpx F := fun q₁ => mem (out + (u + q₁ * m))
  forLoop 0 p (fun q₁ mem =>
    Function.update mem (out + (u + q₁ * m)) (genericSum st fstride p (u + q₁ * m) scratch).1) mem

/-- The butterfly that recombines a stage of radix `p`. -/
def kfBfly (fstride m p out : ℕ) : (ℕ → Cpx F) → ℕ → Cpx F :=
  match p with
  | 2 => forLoop 0 m fun k => kfBfly2 st fstride m k (out + k)
  | 3 => forLoop 0 m fun k => kfBfly3 st fstride m k (out + k)
  | 4 => forLoop 0 m fun k => kfBfly4 st fstride m k (out + k)
  | 5 => forLoop 0 m fun u => kfBfly5 st fstride m u (out + u)
  | p => forLoop 0 m fun u => kfBflyGeneric st fstride m p u out

/-! ## Transforms -/

/-- `kf_work`, from the memory `f` at `off` to the memory `mem` at `out`. -/
def kfWork (f : ℕ → Cpx F) (inStride : ℕ) : List (ℕ × ℕ) → ℕ → ℕ → ℕ → (ℕ → Cpx F) → ℕ → Cpx F
  | [], _, _, _, mem => mem
  | (p, m) :: factors, fstride, out, off, mem =>
      let mem :=
        if m = 1 then
          forLoop 0 p (fun i mem => Function.update mem (out + i) (f (off + i * (fstride * inStride)))) mem
        else
          forLoop 0 p (fun i mem =>
            kfWork f inStride factors (fstride * p) (out + i * m) (off + i * (fstride * inStride)) mem) mem
      kfBfly st fstride m p out mem

/-- `kiss_fft_stride`, through a temporary buffer where `fin` and `fout` are one memory. -/
def kissFftStride (fin fout : ℕ → Cpx F) (inStride : ℕ) : ℕ → Cpx F := kfWork st fin inStride st.factors 1 0 0 fout

/-- `kiss_fft`. -/
def kissFft (fin fout : ℕ → Cpx F) : ℕ → Cpx F := kissFftStride st fin fout 1

end Transform

/-! ## Real transforms -/

/-- `struct kiss_fftr_state`. -/
structure KissFftrState (F : Type) where
  substate : KissFftState F
  tmpbuf : ℕ → Cpx F
  superTwiddles : ℕ → Cpx F

/-- `kiss_fftr_alloc` for an even `nfft`, when it finds memory, which holds `junk`. -/
def Fft.kissFftrAlloc [CTrig F] (nfft : ℕ) (inverse : Bool) (junk : KissFftrState F) : Option (KissFftrState F) :=
  if nfft % 2 = 1 then none
  else
    let nfft := nfft / 2
    some {
      substate := kissFftAlloc nfft inverse junk.substate.twiddles
      tmpbuf := junk.tmpbuf
      superTwiddles := forLoop 0 (nfft / 2) (fun i twiddles =>
        let phase : F := -pi * (ofNat (i + 1) / ofNat nfft + ofRat 0.5)
        let phase := if inverse then phase * ofRat (-1) else phase
        Function.update twiddles i (kfCexp phase)) junk.superTwiddles }

section Real

variable [CFloat F] (st : KissFftrState F)

/-- Real samples read as complex ones. -/
def packed (timedata : ℕ → F) : ℕ → Cpx F := fun j => ⟨timedata (2 * j), timedata (2 * j + 1)⟩

/-- Complex samples read as real ones. -/
def unpacked (z : ℕ → Cpx F) : ℕ → F := fun j => if j % 2 = 0 then (z (j / 2)).r else (z (j / 2)).i

/-- `kiss_fftr`: the spectrum, written to the memory `freqdata`, and the state; `none` where the program exits. -/
def kissFftr (timedata : ℕ → F) (freqdata : ℕ → Cpx F) : Option ((ℕ → Cpx F) × KissFftrState F) :=
  if st.substate.inverse then none
  else
    let ncfft := st.substate.nfft
    let tmpbuf := kissFft st.substate (packed timedata) st.tmpbuf
    let tdc := tmpbuf 0
    let freqdata := Function.update freqdata 0 ⟨tdc.r + tdc.i, ofRat 0⟩
    let freqdata := Function.update freqdata ncfft ⟨tdc.r - tdc.i, ofRat 0⟩
    let freqdata := forLoop 1 (ncfft / 2 + 1) (fun k freqdata =>
      let fpk := tmpbuf k
      let fpnk : Cpx F := ⟨(tmpbuf (ncfft - k)).r, -(tmpbuf (ncfft - k)).i⟩
      let f1k := fpk.add fpnk
      let f2k := fpk.sub fpnk
      let tw := f2k.mul (st.superTwiddles (k - 1))
      let freqdata := Function.update freqdata k ⟨halfOf (f1k.r + tw.r), halfOf (f1k.i + tw.i)⟩
      Function.update freqdata (ncfft - k) ⟨halfOf (f1k.r - tw.r), halfOf (tw.i - f1k.i)⟩) freqdata
    some (freqdata, { st with tmpbuf := tmpbuf })

/-- `kiss_fftri`: the samples, written to the memory `timedata`, and the state. -/
def kissFftri (freqdata : ℕ → Cpx F) (timedata : ℕ → F) : Option ((ℕ → F) × KissFftrState F) :=
  if ¬ st.substate.inverse then none
  else
    let ncfft := st.substate.nfft
    let tmpbuf := Function.update st.tmpbuf 0
      ⟨(freqdata 0).r + (freqdata ncfft).r, (freqdata 0).r - (freqdata ncfft).r⟩
    let tmpbuf := forLoop 1 (ncfft / 2 + 1) (fun k tmpbuf =>
      let fk := freqdata k
      let fnkc : Cpx F := ⟨(freqdata (ncfft - k)).r, -(freqdata (ncfft - k)).i⟩
      let fek := fk.add fnkc
      let tmp := fk.sub fnkc
      let fok := tmp.mul (st.superTwiddles (k - 1))
      let tmpbuf := Function.update tmpbuf k (fek.add fok)
      let tmpbuf := Function.update tmpbuf (ncfft - k) (fek.sub fok)
      let last := tmpbuf (ncfft - k)
      Function.update tmpbuf (ncfft - k) ⟨last.r, last.i * ofRat (-1)⟩) tmpbuf
    some (unpacked (kissFft st.substate tmpbuf (packed timedata)), { st with tmpbuf := tmpbuf })

end Real

/-! ## Fast sizes -/

/-- What `kiss_fft_next_fast_size` holds: `n` and `m`. -/
structure NextFast where
  n : ℕ
  m : ℕ

/-- One turn of its loops from `m`: divide by `2`, else by `3`, else by `5`, else `n++`, which overflows at the
largest `int`. -/
def nextFastTurn (s : NextFast) : TurnEnd NextFast :=
  if s.m % 2 = 0 then .next { s with m := s.m / 2 }
  else if s.m % 3 = 0 then .next { s with m := s.m / 3 }
  else if s.m % 5 = 0 then .next { s with m := s.m / 5 }
  else if s.m ≤ 1 then .leave s
  else if (s.n : ℤ) = CInt.intMax then .undefined
  else .next ⟨s.n + 1, s.n + 1⟩

end AudioProcess
