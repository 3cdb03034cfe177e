import AudioProcess.Lib.CFloat
import AudioProcess.Lib.Loop
import AudioProcess.Lib.Mem

/-!
# The high-pass filter (`WebRtc_AMP_Port/libapm/src/highpass_filter.c`)

A filter of fifteen taps that works in place. `filter_int16` and `filter_float` are one loop over two sample
types: `filterWith`, with the conversions of a `SampleType`. The pointer `data` is an offset `off` into the
memory of the samples.

* `FilterState`, `keepValueRange`; **`initFilter`**, on the bytes of the state;
* `filterSum`, `updateState`, `filterTurn`: the parts of one turn;
* `filterWith`; **`filterInt16`**, **`filterFloat`**.
-/

namespace AudioProcess

open CFloat CLoop Mem

/-- `COEF_LEN`. -/
def coefLen : ℕ := 15

/-- The table `filterCoef`. -/
def filterCoef (j : ℕ) : ℚ :=
  ([-0.04498110712, -0.008693917654, -0.009345070459, -0.009919825941, -0.01037237514,
    -0.01073910017, -0.01090841275, 0.989046514, -0.01090841275, -0.01073910017,
    -0.01037237514, -0.009919825941, -0.009345070459, -0.008693917654, -0.04498110712] : List ℚ).getD j 0

/-- `struct FilterState`, with the coefficients that its pointer leads to. -/
structure FilterState (F : Type) where
  w : ℕ → F
  filterCoef : ℕ → F

/-- What the assignments from and to a sample convert. -/
structure SampleType (F α : Type) where
  load : α → F
  store : F → α

variable {F : Type} [CFloat F] {α : Type}

/-- `KeepValueRange`. -/
def keepValueRange (value min max : F) : F := if value < min then min else if value > max then max else value

/-- `sizeof(float)`. -/
def sizeofFloat : ℕ := 4

/-- `sizeof(short)`. -/
def sizeofShort : ℕ := 2

/-- `initFilter` of a state whose `w` is the memory `raw`; `value` is the number that four bytes hold. The
`memset` counts the fifteen cells of `w` by the size of a `short`. -/
def initFilter (value : List UInt8 → F) (raw : ℕ → UInt8) : FilterState F where
  w j := value (readCells (memset raw 0 0 (sizeofShort * coefLen)) (sizeofFloat * j) sizeofFloat)
  filterCoef j := ofRat (AudioProcess.filterCoef j)

/-- The loop over the taps. -/
def filterSum (state : FilterState F) : F :=
  forLoop 0 coefLen (fun j sum => sum + state.w j * state.filterCoef j) (ofRat 0)

/-- `for (j = COEF_LEN - 1; j > 0; j--) w[j] = w[j - 1]`. -/
def updateState (state : FilterState F) : FilterState F :=
  { state with
    w := forLoop 0 (coefLen - 1) (fun i w =>
      let j := coefLen - 1 - i
      Function.update w j (w (j - 1))) state.w }

/-- One turn, for the sample at offset `i`. -/
def filterTurn (ty : SampleType F α) (i : ℕ) (p : FilterState F × (ℕ → α)) : FilterState F × (ℕ → α) :=
  let state := { p.1 with w := Function.update p.1.w 0 (ty.load (p.2 i)) }
  let sum := filterSum state
  (updateState state, Function.update p.2 i (ty.store sum))

/-- The loop of the filters over the `len` samples at `data + off`. -/
def filterWith (ty : SampleType F α) (state : FilterState F) (data : ℕ → α) (off : ℕ) (len : ℤ) :
    FilterState F × (ℕ → α) :=
  forLoop 0 len.toNat (fun i => filterTurn ty (off + i)) (state, data)

/-- `short` samples. -/
def int16Samples : SampleType F Int16 where
  load v := ofRat v.toInt
  store sum := Int16.ofInt (trunc (keepValueRange sum (ofRat (-32768)) (ofRat 32767)))

/-- `float` samples. -/
def floatSamples : SampleType F F where
  load v := v
  store sum := keepValueRange sum (ofRat (-1)) (ofRat 1)

/-- `filter_int16`. -/
def filterInt16 (state : FilterState F) (data : ℕ → Int16) (off : ℕ) (len : ℤ) :
    FilterState F × (ℕ → Int16) := filterWith int16Samples state data off len

/-- `filter_float`. -/
def filterFloat (state : FilterState F) (data : ℕ → F) (off : ℕ) (len : ℤ) : FilterState F × (ℕ → F) :=
  filterWith floatSamples state data off len

end AudioProcess
