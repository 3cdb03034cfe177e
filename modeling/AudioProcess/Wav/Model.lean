import AudioProcess.Lib.Bytes

/-!
# WAV headers (`common/wav_parser/wav_io.c`, and its copy in `WebRtc_AMP_Port`)

Integers are little-endian and the structs have no padding. A pointer into the buffer is the part of the
buffer from it on, and `none` is a read outside the buffer.

* `FourCC`, `RiffChunk`, `FormatChunk`, `DataChunk`, `WavHeader`;
* `File`, `fread`, `fwrite`, `fseekCur`;
* `stringCmp`, `searchID`, `readHeader`;
* `writeHeader`.
-/

namespace AudioProcess

open Bytes

/-! ## The structs -/

/-- `char ID[ID_LEN]`. -/
structure FourCC where
  c₀ : UInt8
  c₁ : UInt8
  c₂ : UInt8
  c₃ : UInt8
deriving DecidableEq

namespace FourCC

def bytes (t : FourCC) : List UInt8 := [t.c₀, t.c₁, t.c₂, t.c₃]

/-- The first four bytes. -/
def ofBytes (bs : List UInt8) : FourCC := ⟨bs.getD 0 0, bs.getD 1 0, bs.getD 2 0, bs.getD 3 0⟩

/-- `"RIFF"`. -/
def riff : FourCC := ⟨82, 73, 70, 70⟩

/-- `"WAVE"`. -/
def wave : FourCC := ⟨87, 65, 86, 69⟩

/-- `"fmt "`. -/
def fmt : FourCC := ⟨102, 109, 116, 32⟩

/-- `"data"`. -/
def data : FourCC := ⟨100, 97, 116, 97⟩

end FourCC

/-- The `int` in the first four bytes. -/
def int32At (bs : List UInt8) : Int32 := Int32.ofNat (leNat (bs.take 4))

/-- The `short` in the first two bytes. -/
def int16At (bs : List UInt8) : Int16 := Int16.ofNat (leNat (bs.take 2))

/-- The memory of an `int`. -/
def int32Bytes (x : Int32) : List UInt8 := natLE 4 x.toUInt32.toNat

/-- The memory of a `short`. -/
def int16Bytes (x : Int16) : List UInt8 := natLE 2 x.toUInt16.toNat

/-- `RIFF_CHUNK`. -/
structure RiffChunk where
  id : FourCC
  size : Int32
  type : FourCC
deriving DecidableEq

/-- `FORMAT_CHUNK`. -/
structure FormatChunk where
  id : FourCC
  size : Int32
  format : Int16
  channels : Int16
  samplePerSec : Int32
  avgBytesPerSec : Int32
  blockAlign : Int16
  bitsPerSample : Int16
deriving DecidableEq

/-- `DATA_CHUNK`. -/
structure DataChunk where
  id : FourCC
  size : Int32
deriving DecidableEq

/-- `WAV_HEADER`. -/
structure WavHeader where
  riff : RiffChunk
  format : FormatChunk
  data : DataChunk
deriving DecidableEq

/-- `sizeof(RIFF_CHUNK)`. -/
def sizeofRiff : ℕ := 12

/-- `sizeof(FORMAT_CHUNK)`. -/
def sizeofFormat : ℕ := 24

/-- `sizeof(DATA_CHUNK)`. -/
def sizeofData : ℕ := 8

def RiffChunk.ofBytes (bs : List UInt8) : RiffChunk where
  id := FourCC.ofBytes bs
  size := int32At (bs.drop 4)
  type := FourCC.ofBytes (bs.drop 8)

def FormatChunk.ofBytes (bs : List UInt8) : FormatChunk where
  id := FourCC.ofBytes bs
  size := int32At (bs.drop 4)
  format := int16At (bs.drop 8)
  channels := int16At (bs.drop 10)
  samplePerSec := int32At (bs.drop 12)
  avgBytesPerSec := int32At (bs.drop 16)
  blockAlign := int16At (bs.drop 20)
  bitsPerSample := int16At (bs.drop 22)

def DataChunk.ofBytes (bs : List UInt8) : DataChunk where
  id := FourCC.ofBytes bs
  size := int32At (bs.drop 4)

/-- The memory of a `RIFF_CHUNK`. -/
def RiffChunk.bytes (r : RiffChunk) : List UInt8 := r.id.bytes ++ int32Bytes r.size ++ r.type.bytes

/-- The memory of a `FORMAT_CHUNK`. -/
def FormatChunk.bytes (f : FormatChunk) : List UInt8 :=
  f.id.bytes ++ int32Bytes f.size ++ int16Bytes f.format ++ int16Bytes f.channels ++
    int32Bytes f.samplePerSec ++ int32Bytes f.avgBytesPerSec ++ int16Bytes f.blockAlign ++
    int16Bytes f.bitsPerSample

/-- The memory of a `DATA_CHUNK`. -/
def DataChunk.bytes (d : DataChunk) : List UInt8 := d.id.bytes ++ int32Bytes d.size

/-- The memory of a `WAV_HEADER`. -/
def WavHeader.bytes (h : WavHeader) : List UInt8 := h.riff.bytes ++ h.format.bytes ++ h.data.bytes

/-- `sizeof(WAV_HEADER)`. -/
def sizeofHeader : ℕ := sizeofRiff + sizeofFormat + sizeofData

/-! ## Files -/

/-- An open file: its bytes and the file position. -/
structure File where
  content : List UInt8
  pos : ℕ
deriving DecidableEq

/-- `fread(buf, 1, n, file)`: the bytes read. -/
def fread (file : File) (n : ℕ) : List UInt8 × File :=
  let buf := (file.content.drop file.pos).take n
  (buf, { file with pos := file.pos + buf.length })

/-- `fwrite(buf, 1, n, file)` of the bytes `buf`. -/
def fwrite (file : File) (buf : List UInt8) : File where
  content := file.content.take file.pos ++ List.replicate (file.pos - file.content.length) 0 ++ buf ++
    file.content.drop (file.pos + buf.length)
  pos := file.pos + buf.length

/-- `fseek(file, off, SEEK_CUR)`. -/
def fseekCur (file : File) (off : ℤ) : File := { file with pos := ((file.pos : ℤ) + off).toNat }

/-! ## Reading a header -/

/-- `BUFFER_SIZE`. -/
def bufferSize : ℕ := 256

/-- `string_cmp`. -/
def stringCmp : List UInt8 → List UInt8 → ℕ → Option ℤ
  | _, _, 0 => some 0
  | a :: str₁, b :: str₂, n + 1 => if a ≠ b then some (-1) else stringCmp str₁ str₂ n
  | _, _, _ + 1 => none

/-- `search_ID`, its loop at `num`: `*loc`, or `none` for the return value `-1`. -/
def searchID (id : List UInt8) (bufSize : ℕ) (buf : List UInt8) (num : ℕ) : Option (Option ℕ) :=
  if bufSize < id.length then some none
  else do
    let r ← stringCmp id buf id.length
    if r = 0 then return some num
    match bufSize with
    | 0 => return none
    | bufSize + 1 => searchID id bufSize buf.tail (num + 1)

/-- `memcpy` of `n` bytes from `p_buf`. -/
def load (pBuf : List UInt8) (n : ℕ) : Option (List UInt8) :=
  if n ≤ pBuf.length then some (pBuf.take n) else none

/-- `read_header` looks for a tag, goes to it and checks that `size` bytes are left there: the pointer and
the length then, or `none` where it returns `-1`. -/
def locate (id : FourCC) (size : ℕ) (pBuf : List UInt8) (bufLen : ℕ) : Option (Option (List UInt8 × ℕ)) := do
  match ← searchID id.bytes bufLen pBuf 0 with
  | none => return none
  | some loc =>
      if bufLen - loc < size then return none
      else return some (pBuf.drop loc, bufLen - loc)

/-- `read_header`. -/
def readHeader (header : WavHeader) (file : File) : Option (ℤ × WavHeader × File) := do
  let (buf, file) := fread file bufferSize
  let bufLen := buf.length
  if bufLen ≤ 0 then return (-1, header, file)
  -- RIFF chunk
  let some (pBuf, bufLen) ← locate .riff sizeofRiff buf bufLen | return (-1, header, file)
  let header := { header with riff := .ofBytes (← load pBuf sizeofRiff) }
  if header.riff.type ≠ .wave then return (-1, header, file)
  -- FMT chunk
  let some (pBuf, bufLen) ← locate .fmt sizeofFormat (pBuf.drop sizeofRiff) (bufLen - sizeofRiff)
    | return (-1, header, file)
  let header := { header with format := .ofBytes (← load pBuf sizeofFormat) }
  -- DATA chunk
  let some (pBuf, bufLen) ← locate .data sizeofData (pBuf.drop sizeofFormat) (bufLen - sizeofFormat)
    | return (-1, header, file)
  let header := { header with data := .ofBytes (← load pBuf sizeofData) }
  return (0, header, fseekCur file (-((bufLen - sizeofData : ℕ) : ℤ)))

/-! ## Writing a header -/

/-- `write_header`: the returned value, `*header` and the file after it. -/
def writeHeader (header : WavHeader) (file : File) : ℤ × WavHeader × File :=
  let header := { header with format := { header.format with size := 16 } }
  (0, header, fwrite file header.bytes)

end AudioProcess
