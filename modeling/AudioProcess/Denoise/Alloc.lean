import AudioProcess.Denoise.Geometry
import AudioProcess.Lib.Words

/-!
# The allocations of `blockThreshold_init`

`blockThreshold_init` and `blockThreshold_free` as far as memory goes: the blocks they allocate and free, and the
pointers and `int32_t`s in the handle. Every call of `malloc` may fail, and a new block holds whatever it holds. The
floats are left out, and what `kiss_fftr_alloc` allocates is a block that nothing else looks into.

* `Field`: the fields of the handle; `Var`: the pointer variables;
* `freeFields`: what `blockThreshold_free` and the code behind `end:` have in common;
* `blockThresholdInitMem`, `blockThresholdFreeMem`.
-/

namespace AudioProcess

open CInt Proc

/-- The fields of `struct MarsBlockThreshold`. -/
inductive Field
  | fs | winSize | halfWinSize | winHanning | maxNblkTime | maxNblkFreq | nblkTime | nblkFreq | macroSize
  | haveNblkTime | sureMatrix | sigmaNoise | sigmaHanningNoise | inbuf | inbufWin | outbuf | stftCoef | stftThre
  | stftCoefBlock | stftCoefBlockNorm | forwardFftrCfg | backwardFftrCfg
  deriving DecidableEq

/-- The number of fields. -/
def Field.count : ℕ := 22

/-- Where a field lies in the handle. -/
def Field.offset (f : Field) : ℕ := f.ctorIdx

theorem Field.offset_lt (f : Field) : f.offset < Field.count := by
  cases f <;> decide

theorem Field.offset_inj {f g : Field} (h : f.offset = g.offset) : f = g := by
  cases f <;> cases g <;> first | rfl | exact absurd h (by decide)

/-- A pointer variable: the local one, a field of the handle, or an entry of a matrix. -/
inductive Var
  | handle
  | field (f : Field)
  | entry (f : Field) (i : ℕ)
  deriving DecidableEq

abbrev MemProc : Type → Type := Proc Words (PtrEvent Var)

/-- `handle->f`. -/
def getField (handle : ℤ) (f : Field) : MemProc ℤ := read .handle handle f.offset

/-- `handle->f = x`. -/
def setField (handle : ℤ) (f : Field) (x : ℤ) : MemProc Unit := write .handle handle f.offset x

/-- `handle->f = p`, for a pointer. -/
def assignField (handle : ℤ) (f : Field) (p : ℤ) : MemProc Unit := do
  setField handle f p
  emit (.assigned (.field f))

/-- `handle->f[i]`. -/
def getEntry (handle : ℤ) (f : Field) (i : ℕ) : MemProc ℤ := do
  let p ← getField handle f
  read (.field f) p i

/-- `handle->f[i] = q`. -/
def assignEntry (handle : ℤ) (f : Field) (i : ℕ) (q : ℤ) : MemProc Unit := do
  let p ← getField handle f
  write (.field f) p i q
  emit (.assigned (.entry f i))

/-- `if (!(handle->f)) goto end`. -/
def checkField (handle : ℤ) (f : Field) : MemProc Unit := do
  let p ← getField handle f
  check (.field f) p

/-- `if (!(handle->f[i])) goto end`. -/
def checkEntry (handle : ℤ) (f : Field) (i : ℕ) : MemProc Unit := do
  let q ← getEntry handle f i
  check (.entry f i) q

/-- Overwrite the `n` floats of `handle->f`. -/
def fillField (handle : ℤ) (f : Field) (n : ℤ) : MemProc Unit := do
  let p ← getField handle f
  fill (.field f) p n.toNat

/-- Overwrite the `n` floats of `handle->f[i]`. -/
def fillEntry (handle : ℤ) (f : Field) (i : ℕ) (n : ℤ) : MemProc Unit := do
  let q ← getEntry handle f i
  fill (.entry f i) q n.toNat

/-- `for (i = 0; i < handle->bound; i++)`, for a body that does not change the bound. -/
def forField (handle : ℤ) (bound : Field) (body : ℕ → MemProc Unit) : MemProc Unit := do
  let n ← getField handle bound
  loop n.toNat fun i => do
    body i
    let _ ← getField handle bound
    pure ()

/-! ## Freeing -/

/-- `SAFE_FREE(handle->f)`. -/
def freeField (handle : ℤ) (f : Field) : MemProc Unit := do
  let p ← getField handle f
  safeFree (.field f) p

/-- `SAFE_FREE(handle->f[i])`. -/
def freeEntry (handle : ℤ) (f : Field) (i : ℕ) : MemProc Unit := do
  let q ← getEntry handle f i
  safeFree (.entry f i) q

/-- Free the rows of the matrix `handle->f`, and the array of the rows if `array`. -/
def freeMatrix (handle : ℤ) (f bound : Field) (array : Bool) : MemProc Unit := do
  let p ← getField handle f
  emit (.checked (.field f))
  if p ≠ 0 then do
    forField handle bound (freeEntry handle f)
    if array then freeField handle f else pure ()
  else pure ()

/-- Free what the handle points to, apart from the window. The code behind `end:` leaves the array `SURE_matrix`
allocated. -/
def freeLater (array : Bool) (handle : ℤ) : MemProc Unit := do
  freeMatrix handle .sureMatrix .nblkTime array
  freeField handle .inbuf
  freeField handle .outbuf
  freeField handle .inbufWin
  freeMatrix handle .stftCoef .maxNblkTime true
  freeMatrix handle .stftThre .maxNblkTime true
  freeMatrix handle .stftCoefBlock .maxNblkTime true
  freeMatrix handle .stftCoefBlockNorm .maxNblkTime true
  freeField handle .forwardFftrCfg
  freeField handle .backwardFftrCfg

/-- Free what the handle points to. -/
def freeFields (array : Bool) (handle : ℤ) : MemProc Unit := do
  freeField handle .winHanning
  freeLater array handle

/-- `blockThreshold_free`. -/
def blockThresholdFreeMem (handle : ℤ) : MemProc Unit := do
  freeFields true handle
  safeFree .handle handle

/-! ## Allocating -/

section Init

variable (alloc : Allocator)

/-- `handle->f = malloc(n)`, and `goto end` if that fails. -/
def mallocField (handle : ℤ) (f : Field) (n : ℤ) : MemProc Unit := do
  let p ← malloc alloc n
  assignField handle f p
  checkField handle f

/-- A buffer of `n` floats, set to zero. -/
def mallocBuffer (handle : ℤ) (f : Field) (n : ℤ) : MemProc Unit := do
  mallocField alloc handle f n
  fillField handle f n

/-- A matrix of `max_nblk_time` rows of `cols` entries. -/
def mallocMatrix (handle : ℤ) (f : Field) (cols : MemProc ℤ) : MemProc Unit := do
  let rows ← getField handle .maxNblkTime
  mallocField alloc handle f rows
  forField handle .maxNblkTime fun i => do
    let n ← cols
    let q ← malloc alloc n
    assignEntry handle f i q
    checkEntry handle f i

/-- `SURE_matrix`, whose rows are set to zero before they are checked. -/
def mallocSURE (handle : ℤ) : MemProc Unit := do
  let rows ← getField handle .nblkTime
  mallocField alloc handle .sureMatrix rows
  forField handle .nblkTime fun i => do
    let n ← getField handle .nblkFreq
    let q ← malloc alloc n
    assignEntry handle .sureMatrix i q
    fillEntry handle .sureMatrix i n
    checkEntry handle .sureMatrix i

/-- `kiss_fftr_alloc`. -/
def kissFftrAlloc (nfft : ℤ) : MemProc ℤ := if nfft % 2 = 1 then pure 0 else malloc alloc 1

/-- `handle->f = kiss_fftr_alloc(handle->win_size, …)`, and `goto end` if that fails. -/
def mallocCfg (handle : ℤ) (f : Field) : MemProc Unit := do
  let w ← getField handle .winSize
  let p ← kissFftrAlloc alloc w
  assignField handle f p
  checkField handle f

/-- The sizes of the window, and the window. -/
def initWindow (handle timeWin fs : ℤ) : MemProc Unit := do
  setField handle .fs fs
  let kHz ← lift (div fs 1000)
  let w ← lift (checked (kHz * timeWin))
  setField handle .winSize w
  let w ← getField handle .winSize
  let w ← lift (evenSize w)
  setField handle .winSize w
  let w ← getField handle .winSize
  let half ← lift (div w 2)
  setField handle .halfWinSize half
  let w ← getField handle .winSize
  mallocField alloc handle .winHanning w
  fillField handle .winHanning w

/-- The sizes of the blocks. -/
def initSizeFields (handle : ℤ) : MemProc Unit := do
  setField handle .maxNblkTime maxNblkTime
  setField handle .maxNblkFreq maxNblkFreq
  setField handle .nblkTime nblkTime
  setField handle .nblkFreq nblkFreq
  let half ← getField handle .halfWinSize
  let rows ← getField handle .maxNblkTime
  let macroSize ← lift (checked (half * rows))
  setField handle .macroSize macroSize
  setField handle .haveNblkTime 0

/-- `handle->win_size/2+1`. -/
def rowSize (handle : ℤ) : MemProc ℤ := do
  let w ← getField handle .winSize
  let half ← lift (div w 2)
  lift (checked (half + 1))

/-- The buffers, the matrices and the plans of the transforms. -/
def initBlocks (handle : ℤ) : MemProc Unit := do
  mallocSURE alloc handle
  let w ← getField handle .winSize
  mallocBuffer alloc handle .inbuf w
  let w ← getField handle .winSize
  mallocBuffer alloc handle .inbufWin w
  let macroSize ← getField handle .macroSize
  let half ← getField handle .halfWinSize
  let n ← lift (checked (macroSize + half))
  mallocBuffer alloc handle .outbuf n
  mallocMatrix alloc handle .stftCoef (rowSize handle)
  mallocMatrix alloc handle .stftThre (rowSize handle)
  mallocMatrix alloc handle .stftCoefBlock (getField handle .maxNblkFreq)
  mallocMatrix alloc handle .stftCoefBlockNorm (getField handle .maxNblkFreq)
  mallocCfg alloc handle .forwardFftrCfg
  mallocCfg alloc handle .backwardFftrCfg

/-- `blockThreshold_init`: the value of `*err`, and the handle. -/
def blockThresholdInitMem (timeWin fs : ℤ) : MemProc (Mars × ℤ) :=
  if timeWin ≤ 0 ∨ fs ≤ 0 then pure (.errorParams, 0)
  else do
    let handle ← malloc alloc Field.count
    emit (.assigned .handle)
    label (do
      initWindow alloc handle timeWin fs
      initSizeFields handle
      initBlocks alloc handle
      pure (.ok, handle)) (do
      freeFields false handle
      pure (.errorMemory, handle))

end Init

end AudioProcess
