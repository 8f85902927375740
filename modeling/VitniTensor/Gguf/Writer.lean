import VitniTensor.Gguf.Parse
import VitniTensor.Lib.Codec

/-!
# GGUF writer

What a model file means: a list of metadata entries, a list of tensor infos and a data
section. The writer emits the file layout that the parser documents.
-/

namespace VitniTensor

open LittleEndian

/-- Elements and bytes of one block of a tensor type. -/
def GgufTensorType.block : GgufTensorType → Option (Nat × Nat)
  | f32 => some (1, 4)
  | f16 => some (1, 2)
  | q4_0 => some (32, 18)
  | q8_0 => some (32, 34)
  | q5_0 => some (32, 22)
  | q4_k => some (256, 144)
  | q6_k => some (256, 210)
  | other _ => none

def GgufValue.type : GgufValue → GgufValueType
  | u8 _ => .uint8
  | i8 _ => .int8
  | u16 _ => .uint16
  | i16 _ => .int16
  | u32 _ => .uint32
  | i32 _ => .int32
  | f32 _ => .float32
  | bool _ => .bool
  | string _ => .string
  | u64 _ => .uint64
  | i64 _ => .int64
  | f64 _ => .float64
  | array _ => .array

/-- The contents of a file. -/
structure GgufModel where
  version : UInt32
  entries : List (String × GgufValue)
  infos : List TensorInfo
  data : List UInt8

namespace GgufModel

def writeString (s : String) : List UInt8 :=
  Codec.blob (toBytes 8) s.asBytes

def writeArray (a : GgufArray) : List UInt8 :=
  toBytes 4 a.elemType.toU32.toNat ++ (toBytes 8 a.len.toNat ++ a.data)

def writeValue : GgufValue → List UInt8
  | .u8 v => [v]
  | .i8 v => [v.toUInt8]
  | .u16 v => toBytes 2 v.toNat
  | .i16 v => toBytes 2 v.toUInt16.toNat
  | .u32 v => toBytes 4 v.toNat
  | .i32 v => toBytes 4 v.toUInt32.toNat
  | .f32 bits => toBytes 4 bits.toNat
  | .bool b => [if b then 1 else 0]
  | .string s => writeString s
  | .u64 v => toBytes 8 v.toNat
  | .i64 v => toBytes 8 v.toUInt64.toNat
  | .f64 bits => toBytes 8 bits.toNat
  | .array a => writeArray a

def writeEntry (e : String × GgufValue) : List UInt8 :=
  writeString e.1 ++ (toBytes 4 e.2.type.toU32.toNat ++ writeValue e.2)

def writeInfo (info : TensorInfo) : List UInt8 :=
  writeString info.name ++ (toBytes 4 info.shape.length ++
    (info.shape.flatMap (fun dim => toBytes 8 dim.toNat) ++
      (toBytes 4 info.dtype.toU32.toNat ++ toBytes 8 info.offset.toNat)))

/-- Everything before the padding. -/
def writeHead (m : GgufModel) : List UInt8 :=
  GgufFile.magic ++ (toBytes 4 m.version.toNat ++ (toBytes 8 m.infos.length ++
    (toBytes 8 m.entries.length ++ (m.entries.flatMap writeEntry ++ m.infos.flatMap writeInfo))))

/-- The last value of a repeated key. -/
def lastValue (m : GgufModel) (key : String) : Option GgufValue :=
  m.entries.reverse.lookup key

/-- A nonzero `U32` under `general.alignment`, else 32. -/
def alignment (m : GgufModel) : Nat :=
  match m.lastValue "general.alignment" with
  | some (.u32 n) => if n = 0 then 32 else n.toNat
  | _ => 32

/-- Where the data section begins. -/
def base (m : GgufModel) : Nat :=
  (m.writeHead.length + m.alignment - 1) / m.alignment * m.alignment

def write (m : GgufModel) : List UInt8 :=
  m.writeHead ++ (List.replicate (m.base - m.writeHead.length) 0 ++ m.data)

end GgufModel

/-! ### Well-formed models -/

/-- The data of an array is the packed encoding of `len` elements. -/
def GgufArray.Packed (a : GgufArray) : Prop :=
  match a.elemType.elemSize with
  | some size => a.data.length = a.len.toNat * size
  | none => a.elemType = .string ∧ ∃ strings : List (List UInt8),
      strings.length = a.len.toNat ∧ (∀ s ∈ strings, s.length < 2 ^ 64) ∧
        a.data = strings.flatMap (Codec.blob (toBytes 8))

/-- The parser's cap on strings. -/
def ShortString (s : String) : Prop :=
  s.asBytes.length ≤ 2 ^ 20

def GgufValue.WellFormed : GgufValue → Prop
  | .string s => ShortString s
  | .array a => a.Packed
  | _ => True

/-- The number of elements of a shape. -/
def numelOf (shape : List UInt64) : Nat :=
  (shape.map UInt64.toNat).prod

/-- The bytes of a tensor of whole blocks. -/
def TensorInfo.nbytes (info : TensorInfo) : Nat :=
  match info.dtype.block with
  | some (per, size) => numelOf info.shape / per * size
  | none => 0

/-- A tensor info of a supported type with whole blocks, whose range lies in the data. -/
structure TensorInfo.WellFormed (data : List UInt8) (info : TensorInfo) : Prop where
  name : ShortString info.name
  rank : info.shape.length ≤ 8
  blocks : ∃ per size, info.dtype.block = some (per, size) ∧ numelOf info.shape % per = 0
  range : info.offset.toNat + info.nbytes ≤ data.length

structure GgufModel.WellFormed (m : GgufModel) : Prop where
  version : m.version = 2 ∨ m.version = 3
  entries : ∀ e ∈ m.entries, ShortString e.1 ∧ e.2.WellFormed
  infos : ∀ info ∈ m.infos, info.WellFormed m.data
  /-- A file is a slice in memory. -/
  size : m.write.length < 2 ^ 63

/-- The products of the leading dims of every tensor fit in `u64`. -/
def GgufModel.DimsFit (m : GgufModel) : Prop :=
  ∀ info ∈ m.infos, ∀ k ≤ info.shape.length, numelOf (info.shape.take k) < 2 ^ 64

/-- The vector of the parsed tensors can be reserved. -/
def GgufModel.TensorsFit (m : GgufModel) : Prop :=
  m.infos.length * GgufFile.tensorSize < 2 ^ 63

instance (m : GgufModel) : Decidable m.TensorsFit :=
  inferInstanceAs (Decidable (_ < _))

/-- What the parser returns for a model. -/
structure GgufModel.ReadAs (m : GgufModel) (g : GgufFile) : Prop where
  version : g.version = m.version
  metadata : ∀ key : String, g.metadata[key]? = m.lastValue key
  tensors : g.tensors = m.infos.map fun info =>
    ⟨info.name, info.shape, info.dtype, (m.data.drop info.offset.toNat).take info.nbytes⟩
  byName : ∀ name : String,
    g.byName[name]? = (m.infos.map TensorInfo.name).zipIdx.reverse.lookup name

end VitniTensor
