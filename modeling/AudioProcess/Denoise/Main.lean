import AudioProcess.Denoise.Api
import AudioProcess.Lib.While
import AudioProcess.Wav.Model

/-!
# The denoise program (`Denoise/BlockThresholding/main.cpp`)

`main` from the open files on: it copies the header, creates the denoiser and feeds it the rest of the file.

* `samples`, `sampleBytes`: 16-bit samples and their bytes; `freadS16`, `fwriteS16`;
* `MainState`, `mainTurn`: one turn of the loop; `fed` lists the samples that the program hands on;
* `numSamples`, `startMain`, `MainReturns`.
-/

namespace AudioProcess

open Mem CInt While

/-- The whole 16-bit samples in `bs`. -/
def samples : List UInt8 → List Int16
  | a :: b :: bs => int16At [a, b] :: samples bs
  | _ => []

/-- The bytes of 16-bit samples. -/
def sampleBytes (xs : List Int16) : List UInt8 := xs.flatMap int16Bytes

/-- `fread(buf, sizeof(int16_t), n, file)`: the whole items read. -/
def freadS16 (file : File) (n : ℕ) : List Int16 × File :=
  let (bytes, file) := fread file (2 * n)
  (samples bytes, file)

/-- `fwrite(buf, sizeof(int16_t), n, file)`. -/
def fwriteS16 (file : File) (buf : ℕ → Int16) (n : ℕ) : File := fwrite file (sampleBytes (readCells buf 0 n))

/-- What `main` holds in its loop. `fed` is for the record: the samples passed to
`blockThreshold_denoise_int16` or copied behind the flush. -/
structure MainState (F : Type) where
  handle : Handle F
  inbuf : ℕ → Int16
  outbuf : ℕ → Int16
  inFile : File
  outFile : File
  fed : List Int16

variable {F : Type} [CFloat F] (c : Config F) (kiss : Kiss F c.winSize)

/-- A short read: flush the denoiser and copy the samples read. -/
def mainFlush (s : MainState F) (readed : ℕ) : MainState F :=
  let (outSize, outbuf, handle) := blockThresholdFlushInt16 c kiss s.handle s.outbuf c.macroSize
  let outFile := if outSize > 0 then fwriteS16 s.outFile outbuf outSize.toNat else s.outFile
  { s with
    handle := handle
    outbuf := outbuf
    outFile := fwriteS16 outFile s.inbuf readed
    fed := s.fed ++ readCells s.inbuf 0 readed }

/-- A whole frame in `inbuf`: denoise it and write the macro-block that it may complete. -/
def mainDenoise (s : MainState F) : TurnEnd (MainState F) :=
  -- `blockThreshold_wiener` divides the integer `fs` by `half_win_size`
  if c.halfWinSize = 0 ∧ s.handle.haveNblkTime + 1 = maxNblkTime then .undefined
  else
    let (ret, handle) := blockThresholdDenoiseInt16 c kiss s.handle (some s.inbuf) c.halfWinSize
    let s := { s with handle := handle, fed := s.fed ++ readCells s.inbuf 0 c.halfWinSize }
    match ret with
    | .errorParams => .leave s
    | .canOutput =>
        let (len, outbuf) := blockThresholdOutputInt16 c s.handle s.outbuf c.macroSize
        .next { s with outbuf := outbuf, outFile := fwriteS16 s.outFile outbuf len.toNat }
    | _ => .next s

/-- One turn of the loop of `main`, its condition first. -/
def mainTurn (numSamples : ℤ) (s : MainState F) : TurnEnd (MainState F) :=
  if numSamples ≤ c.halfWinSize then .leave s
  else
    let (items, inFile) := freadS16 s.inFile c.halfWinSize
    let inbuf := fun k => items.getD k (s.inbuf k)
    let s := { s with inbuf := inbuf, inFile := inFile }
    if items.length ≠ c.halfWinSize then .leave (mainFlush c kiss s items.length)
    else mainDenoise c kiss s

/-- `num_samples`. -/
def numSamples (h : WavHeader) : Option ℤ := do
  div (← div (← div h.data.size.toInt h.format.channels.toInt) h.format.bitsPerSample.toInt) 8

/-- What `main` finds: uninitialised memory, and which allocations succeed. -/
structure MainEnv (F : Type) where
  header : WavHeader
  junkWin : ℕ → F
  junk : Handle F
  inbuf : ℕ → Int16
  outbuf : ℕ → Int16
  mallocs : Bool
  mallocInbuf : Bool
  mallocOutbuf : Bool

/-- What `main` leaves: the value returned, the samples fed and the output file. -/
structure MainEnd where
  ret : ℤ
  fed : List Int16
  outFile : File

/-- `main` up to its loop: where it stops before, or the denoiser, `num_samples` and the state it loops
from. -/
def startMain (env : MainEnv F) (frameMs : ℤ) (inFile : File) :
    Outcome MainEnd ⊕ Config F × ℤ × MainState F :=
  match readHeader env.header inFile with
  | none => .inl .undefined
  | some (_, header, inFile) =>
      let (_, header, outFile) := writeHeader header ⟨[], 0⟩
      match numSamples header with
      | none => .inl .undefined
      | some n =>
          match blockThresholdInit env.mallocs env.junkWin env.junk (toInt32 frameMs)
              header.format.samplePerSec.toInt with
          | .error .overflow => .inl .undefined
          | .error _ => .inl (.ended ⟨-1, [], outFile⟩)
          | .ok (c, handle) =>
              if env.mallocInbuf && env.mallocOutbuf then
                .inr (c, n, ⟨handle, env.inbuf, env.outbuf, inFile, outFile, []⟩)
              else .inl (.ended ⟨-1, [], outFile⟩)

/-- What `main` returns after its loop. -/
def endMain : Outcome (MainState F) → Outcome MainEnd
  | .ended s => .ended ⟨0, s.fed, s.outFile⟩
  | .undefined => .undefined

/-- `main` on `inFile` stops with the outcome `o`. -/
def MainReturns (kiss : ∀ n, Kiss F n) (env : MainEnv F) (frameMs : ℤ) (inFile : File) (o : Outcome MainEnd) :
    Prop :=
  match startMain env frameMs inFile with
  | .inl o' => o' = o
  | .inr (c, n, s) => ∃ r, Yields (mainTurn c (kiss c.winSize) n) s r ∧ endMain r = o

end AudioProcess
