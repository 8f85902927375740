import VitniTensor.Gguf.Types
import VitniTensor.Lib.Exec
import VitniTensor.Lib.Text

/-!
# GGUF parser

The cursor reads from a shared buffer, so its state is a position. The state also carries
a record of the work done: every iteration of the five loops of `parse` and every vector
that it reserves before reading.
-/

namespace VitniTensor

/-- A vector asked for: the number of its elements, and the bytes of one. -/
structure Reservation where
  count : Nat
  size : Nat
  deriving DecidableEq, Repr

/-- Iterations executed and vectors asked for. -/
structure Work where
  metadata : Nat
  arrayStrings : Nat
  tensorInfos : Nat
  dims : Nat
  tensors : Nat
  reserved : List Reservation
  deriving DecidableEq, Repr

structure Cursor where
  pos : Nat
  work : Work
  deriving DecidableEq, Repr

abbrev Parse := Exec Cursor Error

def Work.none : Work := ⟨0, 0, 0, 0, 0, []⟩

namespace Cursor

open Outcome Exec

def new : Cursor := ⟨0, Work.none⟩

def countMetadata : Parse Unit :=
  update fun c => { c with work.metadata := c.work.metadata + 1 }

def countArrayString : Parse Unit :=
  update fun c => { c with work.arrayStrings := c.work.arrayStrings + 1 }

def countTensorInfo : Parse Unit :=
  update fun c => { c with work.tensorInfos := c.work.tensorInfos + 1 }

def countDim : Parse Unit :=
  update fun c => { c with work.dims := c.work.dims + 1 }

def countTensor : Parse Unit :=
  update fun c => { c with work.tensors := c.work.tensors + 1 }

/-- `Vec::with_capacity`, noted before it is granted or refused. -/
def reserve (request : Reservation) : Parse Unit := do
  update fun c => { c with work.reserved := request :: c.work.reserved }
  lift (withCapacity request.count request.size)

def seek (pos : Nat) : Parse Unit :=
  update fun c => { c with pos := pos }

variable (buf : List UInt8)

def readN (n : Nat) : Parse (List UInt8) := do
  let c ← state
  let «end» ← lift (okOr (checked (c.pos + n)) (.overflow "gguf: read past end (overflow)"))
  if «end» > buf.length then fail (.truncated "gguf: read past end")
  else do
    let s ← lift (slice buf c.pos «end»)
    seek «end»
    pure s

/-- `from_le_bytes([s[0], .., s[n - 1]])`. -/
def fromLeBytes (n : Nat) (s : List UInt8) : Res Nat := do
  let bytes ← slice s 0 n
  pure (LittleEndian.ofBytes bytes)

def readU32 : Parse UInt32 := do
  let s ← readN buf 4
  let v ← lift (fromLeBytes 4 s)
  pure (UInt32.ofNat v)

def readU64 : Parse UInt64 := do
  let s ← readN buf 8
  let v ← lift (fromLeBytes 8 s)
  pure (UInt64.ofNat v)

def readString : Parse String := do
  let n ← readU64 buf
  if n.toNat > 2 ^ 20 then fail (.malformed "gguf: string length > 1 MiB")
  else do
    let bytes ← readN buf n.toNat
    lift (okOr (String.ofBytes? bytes) (.malformed "gguf: non-UTF8 string"))

/-- The loop over the strings of an array: lengths are read, contents skipped. -/
def skipStrings : Nat → Parse Unit
  | 0 => pure ()
  | len + 1 => do
    countArrayString
    let n ← readU64 buf
    let c ← state
    let pos ← lift (okOr (checked (c.pos + n.toNat)) (.overflow "gguf: array string overflow"))
    seek pos
    if pos > buf.length then fail (.truncated "gguf: array string past end")
    else skipStrings len

/-- The branch of `read_value` that skips an array of fixed-size elements. -/
def skipElems (elemType : GgufValueType) (len : UInt64) : Parse Unit := do
  let elemSize ← lift (okOr elemType.elemSize (.malformed "gguf: bad array elem type"))
  let total ← lift (okOr (checked (len.toNat * elemSize)) (.overflow "gguf: array byte total overflow"))
  let c ← state
  let «end» ← lift (okOr (checked (c.pos + total)) (.overflow "gguf: array end overflow"))
  if «end» > buf.length then fail (.truncated "gguf: array past end of buffer")
  else seek «end»

def readArray : Parse GgufArray := do
  let elemTypeRaw ← readU32 buf
  let elemType ← lift (okOr (GgufValueType.fromU32 elemTypeRaw) (.malformed "gguf: bad array elem type"))
  if elemType = .array then fail (.malformed "gguf: nested arrays not supported")
  else do
    let len ← readU64 buf
    let start ← state
    if elemType = .string then skipStrings buf len.toNat else skipElems buf elemType len
    let stop ← state
    let data ← lift (slice buf start.pos stop.pos)
    pure ⟨elemType, len, data⟩

/-- `self.read_n(1)?[0]`. -/
def readByte : Parse UInt8 := do
  let s ← readN buf 1
  lift (index s 0)

/-- `u16::from_le_bytes`. -/
def readU16 : Parse UInt16 := do
  let s ← readN buf 2
  let v ← lift (fromLeBytes 2 s)
  pure (UInt16.ofNat v)

def readValue (ty : GgufValueType) : Parse GgufValue :=
  match ty with
  | .uint8 => do
    let b ← readByte buf
    pure (.u8 b)
  | .int8 => do
    let b ← readByte buf
    pure (.i8 b.toInt8)
  | .uint16 => do
    let v ← readU16 buf
    pure (.u16 v)
  | .int16 => do
    let v ← readU16 buf
    pure (.i16 v.toInt16)
  | .uint32 => do
    let v ← readU32 buf
    pure (.u32 v)
  | .int32 => do
    let v ← readU32 buf
    pure (.i32 v.toInt32)
  | .float32 => do
    let bits ← readU32 buf
    pure (.f32 bits)
  | .bool => do
    let b ← readByte buf
    pure (.bool (b != 0))
  | .string => do
    let s ← readString buf
    pure (.string s)
  | .uint64 => do
    let v ← readU64 buf
    pure (.u64 v)
  | .int64 => do
    let v ← readU64 buf
    pure (.i64 v.toInt64)
  | .float64 => do
    let bits ← readU64 buf
    pure (.f64 bits)
  | .array => do
    let a ← readArray buf
    pure (.array a)

end Cursor

/-- A tensor info record: name, shape, dtype and offset. -/
structure TensorInfo where
  name : String
  shape : List UInt64
  dtype : GgufTensorType
  offset : UInt64
  deriving DecidableEq, Repr

namespace GgufFile

open Outcome Exec Cursor

variable (buf : List UInt8)

def readEntry : Parse (String × GgufValue) := do
  let key ← readString buf
  let valueTypeRaw ← readU32 buf
  let valueType ← lift (okOr (GgufValueType.fromU32 valueTypeRaw) (.malformed "gguf: unknown value type"))
  let value ← readValue buf valueType
  pure (key, value)

def readMetadata : Nat → BTreeMap GgufValue → Parse (BTreeMap GgufValue)
  | 0, metadata => pure metadata
  | count + 1, metadata => do
    countMetadata
    let (key, value) ← readEntry buf
    readMetadata count (metadata.insert key value)

def readDims : Nat → Parse (List UInt64)
  | 0 => pure []
  | n + 1 => do
    countDim
    let dim ← readU64 buf
    let rest ← readDims n
    pure (dim :: rest)

def readTensorInfo : Parse TensorInfo := do
  let name ← readString buf
  let nDims ← readU32 buf
  if nDims.toNat > 8 then fail (.malformed "gguf: tensor rank > 8 (sanity bound)")
  else do
    reserve ⟨nDims.toNat, 8⟩
    let shape ← readDims buf nDims.toNat
    let rawDtype ← readU32 buf
    let offset ← readU64 buf
    pure ⟨name, shape, GgufTensorType.fromU32 rawDtype, offset⟩

def readTensorInfos : Nat → Parse (List TensorInfo)
  | 0 => pure []
  | count + 1 => do
    countTensorInfo
    let info ← readTensorInfo buf
    let rest ← readTensorInfos count
    pure (info :: rest)

/-- `general.alignment`, or the default of 32. -/
def alignmentOf (metadata : BTreeMap GgufValue) : Nat :=
  match metadata["general.alignment"]? with
  | some (.u32 n) => n.toNat
  | _ => 32

/-- `a.div_ceil(b)`. -/
def divCeil (a b : Nat) : Res Nat :=
  if b = 0 then panic .divideByZero else pure ((a + b - 1) / b)

/-- The position after the padding. -/
def alignUp (pos alignment : Nat) : Res Nat := do
  let units ← divCeil pos alignment
  okOr (checked (units * alignment)) (.overflow "gguf: alignment padding overflow")

/-- The byte range of a tensor, checked against the end of the file. -/
def sliceTensor (base : Nat) (info : TensorInfo) : Res GgufTensor := do
  let numel ← checkedNumel info.shape
  let nbytes ← info.dtype.bytesForNumel numel
  let start ← okOr (checked (base + info.offset.toNat)) (.overflow "gguf: tensor offset overflow")
  let «end» ← okOr (checked (start + nbytes)) (.overflow "gguf: tensor end overflow")
  if «end» > buf.length then .error (.err (.truncated "gguf: tensor extends past end of file"))
  else do
    let bytes ← slice buf start «end»
    pure ⟨info.name, info.shape, info.dtype, bytes⟩

/-- The loop that materializes the tensors, from tensor `i` on. -/
def sliceTensors (base : Nat) : Nat → List TensorInfo → BTreeMap Nat →
    Parse (List GgufTensor × BTreeMap Nat)
  | _, [], byName => pure ([], byName)
  | i, info :: infos, byName => do
    countTensor
    let tensor ← lift (sliceTensor buf base info)
    let (tensors, byName) ← sliceTensors base (i + 1) infos (byName.insert info.name i)
    pure (tensor :: tensors, byName)

def magic : List UInt8 := [0x47, 0x47, 0x55, 0x46]

def supportedVersions : List UInt32 := [2, 3]

def minTensorInfoBytes : Nat := 24

/-- Bytes of a `(String, Vec<u64>, GgufTensorType, u64)`: 24, 24, 8 and 8. -/
abbrev infoSize : Nat := 64

/-- Bytes of a `GgufTensor`: 24, 24, 8 and the 16 of a slice. -/
abbrev tensorSize : Nat := 72

/-- The first part of `parse`: header, metadata and tensor infos. -/
def readHead : Parse (UInt32 × BTreeMap GgufValue × List TensorInfo) := do
  let found ← readN buf 4
  if found ≠ magic then fail (.malformed "gguf: bad magic (not 'GGUF')")
  else do
    let version ← readU32 buf
    if version ∉ supportedVersions then
      fail (.malformed "gguf: unsupported version (only v2/v3 supported)")
    else do
      let tensorCount ← readU64 buf
      let metadataKvCount ← readU64 buf
      let metadata ← readMetadata buf metadataKvCount.toNat ∅
      let c ← state
      let remaining := buf.length - c.pos
      let most ← lift (word (remaining / minTensorInfoBytes + 1))
      reserve ⟨min tensorCount.toNat most, infoSize⟩
      let tensorInfos ← readTensorInfos buf tensorCount.toNat
      pure (version, metadata, tensorInfos)

/-- The second part: alignment, and the byte slices of the tensors. -/
def placeTensors (version : UInt32) (metadata : BTreeMap GgufValue) (tensorInfos : List TensorInfo) :
    Parse GgufFile := do
  let alignment := alignmentOf metadata
  if alignment = 0 then fail (.malformed "gguf: general.alignment is zero")
  else do
    let c ← state
    let aligned ← lift (alignUp c.pos alignment)
    seek aligned
    reserve ⟨tensorInfos.length, tensorSize⟩
    let (tensors, byName) ← sliceTensors buf aligned 0 tensorInfos ∅
    pure ⟨version, metadata, tensors, byName⟩

def parse : Parse GgufFile := do
  let (version, metadata, tensorInfos) ← readHead buf
  placeTensors buf version metadata tensorInfos

/-- The result of `GgufFile::parse`. -/
def parsed : Res GgufFile :=
  ((parse buf).eval Cursor.new).1

end GgufFile

end VitniTensor
