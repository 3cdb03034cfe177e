import AudioProcess.Lib.CFloat
import AudioProcess.Lib.CInt
import AudioProcess.Lib.Loop
import AudioProcess.Lib.Mem

/-!
# The denoiser's handle (`Denoise/BlockThresholding/src/audioDenoiseBlockTreshold.c`)

`struct MarsBlockThreshold` in two parts: `Config`, which `blockThreshold_init` fills in and nothing
changes later, and `Handle`, the mutable buffers. Floating-point operations are those of any `CFloat`.
The calls to the FFT library are parameters: `Kiss` gives what `kiss_fftr` and `kiss_fftri` compute from
the samples, or the bins, they read.

* `makeHanningWindow`, `blockThresholdInit`, `blockThresholdReset`;
* `floatToS16`, `s16ToFloat`;
* `blockThresholdSTFT`, `blockThresholdInverseSTFT`.
-/

namespace AudioProcess

open CFloat CLoop Mem

/-- `kiss_fft_cpx`. -/
structure Cpx (F : Type) where
  r : F
  i : F

/-- What `kiss_fftr` and `kiss_fftri` compute for windows of `n` samples. -/
structure Kiss (F : Type) (n : ℕ) where
  fftr : (Fin n → F) → Fin (n / 2 + 1) → Cpx F
  fftri : (Fin (n / 2 + 1) → Cpx F) → Fin n → F

/-- `max_nblk_time`. -/
def maxNblkTime : ℕ := 8

/-- `max_nblk_freq`. -/
def maxNblkFreq : ℕ := 16

/-- `nblk_time`. -/
def nblkTime : ℕ := 3

/-- `nblk_freq`. -/
def nblkFreq : ℕ := 5

/-- The fields of the handle that are constant after `blockThreshold_init`. -/
structure Config (F : Type) where
  fs : ℕ
  winSize : ℕ
  winHanning : ℕ → F
  sigmaHanningNoise : F

/-- `half_win_size`. -/
def Config.halfWinSize {F : Type} (c : Config F) : ℕ := c.winSize / 2

/-- `macro_size`. -/
def Config.macroSize {F : Type} (c : Config F) : ℕ := c.halfWinSize * maxNblkTime

/-- The mutable fields of the handle. -/
structure Handle (F : Type) where
  haveNblkTime : ℕ
  sureMatrix : ℕ → ℕ → F
  inbuf : ℕ → F
  inbufWin : ℕ → F
  outbuf : ℕ → F
  stftCoef : ℕ → ℕ → Cpx F
  stftThre : ℕ → ℕ → Cpx F
  stftCoefBlock : ℕ → ℕ → Cpx F
  stftCoefBlockNorm : ℕ → ℕ → Cpx F

/-- The codes `MARS_OK`, …, `MARS_CAN_OUTPUT`. -/
inductive Mars
  | ok
  | errorMemory
  | errorParams
  | needMoreSamples
  | canOutput
  deriving DecidableEq

variable {F : Type} [CFloat F]

/-- `make_hanning_window`, writing to the memory `win`. -/
def makeHanningWindow (win : ℕ → F) (winSize : ℕ) : ℕ → F :=
  forLoop 0 (winSize / 2) (fun i win =>
    let win := Function.update win i (ofRat 0.5 -
      ofRat 0.5 * cos (ofRat 2 * pi * ofNat i / (ofNat winSize - ofRat 1)))
    Function.update win (winSize - 1 - i) (win i)) win

/-- `sigma_hanning_noise`. -/
def sigmaHanning : F := ofRat 0.047 * sqrt (ofRat 0.375)

/-- `memset(m[i], 0, …)` for the rows of `SURE_matrix`. -/
def clearSure (m : ℕ → ℕ → F) : ℕ → ℕ → F :=
  forLoop 0 nblkTime (fun i m => Function.update m i (memset (m i) 0 (ofRat 0) nblkFreq)) m

/-- Why `blockThreshold_init` gives no usable handle: it rejects the parameters, an allocation failed, or
the sizes overflow an `int`, which leaves the program without defined behaviour. -/
inductive InitError
  | params
  | memory
  | overflow
  deriving DecidableEq

/-- `win_size` as `blockThreshold_init` computes it, before conversion to `int32_t`. -/
def initWinSize (timeWin fs : ℤ) : ℤ :=
  let w := fs / 1000 * timeWin
  if w % 2 = 1 then w + 1 else w

/-- The constant fields that `blockThreshold_init` fills in; `junkWin` is what the memory of the window
holds. -/
def initConfig (junkWin : ℕ → F) (timeWin fs : ℤ) : Config F :=
  let winSize := (initWinSize timeWin fs).toNat
  ⟨fs.toNat, winSize, makeHanningWindow junkWin winSize, sigmaHanning⟩

/-- The buffers that `blockThreshold_init` allocates, from memory that holds `junk`. -/
def initHandle (c : Config F) (junk : Handle F) : Handle F :=
  { junk with
    haveNblkTime := 0
    sureMatrix := clearSure junk.sureMatrix
    inbuf := memset junk.inbuf 0 (ofRat 0) c.winSize
    inbufWin := memset junk.inbufWin 0 (ofRat 0) c.winSize
    outbuf := memset junk.outbuf 0 (ofRat 0) (c.macroSize + c.halfWinSize) }

/-- `blockThreshold_init`. `mallocs` tells whether all its allocations succeed. -/
def blockThresholdInit (mallocs : Bool) (junkWin : ℕ → F) (junk : Handle F) (timeWin fs : ℤ) :
    Except InitError (Config F × Handle F) :=
  if timeWin ≤ 0 ∨ fs ≤ 0 then .error .params
  else
    let w := initWinSize timeWin fs
    if w > CInt.intMax ∨ w / 2 * maxNblkTime + w / 2 > CInt.intMax then .error .overflow
    else if mallocs then
      let c := initConfig junkWin timeWin fs
      .ok (c, initHandle c junk)
    else .error .memory

variable (c : Config F)

/-- `blockThreshold_reset` of a non-null handle. -/
def blockThresholdReset (h : Handle F) : Handle F :=
  { h with
    haveNblkTime := 0
    sureMatrix := clearSure h.sureMatrix
    inbuf := memset h.inbuf 0 (ofRat 0) c.winSize
    outbuf := memset h.outbuf 0 (ofRat 0) (c.macroSize + c.halfWinSize) }

/-- `FloatToS16`. -/
def floatToS16 (v : F) : Int16 :=
  if v > ofRat 0 then
    if v ≥ ofRat 1 then 32767 else Int16.ofInt (trunc (v * ofRat 32767 + ofRat 0.5))
  else if v ≤ -ofRat 1 then -32768
  else Int16.ofInt (trunc (-v * ofRat (-32768) - ofRat 0.5))

/-- `S16ToFloat`. -/
def s16ToFloat (v : Int16) : F :=
  ofRat v.toInt * (if v.toInt > 0 then ofRat 1 / ofRat 32767 else -(ofRat 1 / ofRat (-32768)))

variable (kiss : Kiss F c.winSize)

/-- `blockThreshold_STFT`. -/
def blockThresholdSTFT (h : Handle F) : Handle F :=
  let w := forLoop 0 c.winSize
    (fun i w => Function.update w i (h.inbuf i * c.winHanning i)) h.inbufWin
  { h with
    inbufWin := w
    stftCoef := Function.update h.stftCoef h.haveNblkTime
      (writeRow (kiss.fftr fun i => w i) (h.stftCoef h.haveNblkTime)) }

/-- One turn of the synthesis loop: add the inverse transform of row `i` at sample `half_win_size * i`. -/
def addInverse (i : ℕ) (h : Handle F) : Handle F :=
  let w := writeRow (kiss.fftri fun j => h.stftCoef i j) h.inbufWin
  { h with
    inbufWin := w
    outbuf := forLoop 0 c.winSize (fun j out =>
      Function.update out (c.halfWinSize * i + j)
        (out (c.halfWinSize * i + j) + w j / ofNat c.winSize)) h.outbuf }

/-- Move the overlap tail to the start of `outbuf` and clear the rest. -/
def shiftOutbuf (h : Handle F) : Handle F :=
  { h with
    outbuf := memset (memcpy h.outbuf 0 h.outbuf c.macroSize c.halfWinSize) c.halfWinSize (ofRat 0)
      c.macroSize }

/-- `blockThreshold_inverse_STFT`. -/
def blockThresholdInverseSTFT (h : Handle F) : Handle F :=
  forLoop 0 maxNblkTime (addInverse c kiss) (shiftOutbuf c h)

end AudioProcess
