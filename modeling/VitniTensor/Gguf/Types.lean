import VitniTensor.Error
import VitniTensor.Lib.LittleEndian
import Std.Data.TreeMap

/-!
# GGUF data model

The values, arrays and tensors of a model file, with the tags that the file stores for
them. Floats are kept as their bit patterns.
-/

namespace VitniTensor

/-- `BTreeMap<String, V>`. -/
abbrev BTreeMap (V : Type) := Std.TreeMap String V

inductive GgufValueType where
  | uint8 | int8 | uint16 | int16 | uint32 | int32 | float32 | bool | string | array
  | uint64 | int64 | float64
  deriving DecidableEq, Repr

namespace GgufValueType

def fromU32 (v : UInt32) : Option GgufValueType :=
  match v.toNat with
  | 0 => some uint8
  | 1 => some int8
  | 2 => some uint16
  | 3 => some int16
  | 4 => some uint32
  | 5 => some int32
  | 6 => some float32
  | 7 => some bool
  | 8 => some string
  | 9 => some array
  | 10 => some uint64
  | 11 => some int64
  | 12 => some float64
  | _ => none

/-- `self as u32`. -/
def toU32 : GgufValueType → UInt32
  | uint8 => 0
  | int8 => 1
  | uint16 => 2
  | int16 => 3
  | uint32 => 4
  | int32 => 5
  | float32 => 6
  | bool => 7
  | string => 8
  | array => 9
  | uint64 => 10
  | int64 => 11
  | float64 => 12

@[simp] theorem fromU32_toU32 (ty : GgufValueType) : fromU32 ty.toU32 = some ty := by
  cases ty <;> rfl

/-- The bytes of one array element, for the types that have a fixed size. -/
def elemSize : GgufValueType → Option Nat
  | uint8 | int8 | bool => some 1
  | uint16 | int16 => some 2
  | uint32 | int32 | float32 => some 4
  | uint64 | int64 | float64 => some 8
  | string | array => none

end GgufValueType

inductive GgufTensorType where
  | f32 | f16 | q4_0 | q8_0 | q5_0 | q4_k | q6_k
  | other (raw : UInt32)
  deriving DecidableEq, Repr

namespace GgufTensorType

def fromU32 (v : UInt32) : GgufTensorType :=
  match v.toNat with
  | 0 => f32
  | 1 => f16
  | 2 => q4_0
  | 6 => q5_0
  | 8 => q8_0
  | 12 => q4_k
  | 14 => q6_k
  | _ => other v

/-- The tag that a file stores for the type. -/
def toU32 : GgufTensorType → UInt32
  | f32 => 0
  | f16 => 1
  | q4_0 => 2
  | q5_0 => 6
  | q8_0 => 8
  | q4_k => 12
  | q6_k => 14
  | other raw => raw

theorem fromU32_toU32 {ty : GgufTensorType} (known : ∀ raw, ty ≠ other raw) :
    fromU32 ty.toU32 = ty := by
  cases ty with
  | other raw => exact absurd rfl (known raw)
  | _ => rfl

/-- One row of `bytes_for_numel`: whole blocks of `per` elements and `size` bytes. -/
def blockBytes (numel per size : Nat) (unaligned overflow : String) : Res Nat :=
  if numel % per ≠ 0 then .error (.err (.malformed unaligned))
  else Outcome.okOr (Outcome.checked (numel / per * size)) (.overflow overflow)

def bytesForNumel (ty : GgufTensorType) (numel : Nat) : Res Nat :=
  match ty with
  | f32 => Outcome.okOr (Outcome.checked (numel * 4)) (.overflow "gguf: F32 byte size overflow")
  | f16 => Outcome.okOr (Outcome.checked (numel * 2)) (.overflow "gguf: F16 byte size overflow")
  | q4_0 => blockBytes numel 32 18 "gguf: Q4_0 tensor numel not a multiple of 32"
      "gguf: Q4_0 byte size overflow"
  | q8_0 => blockBytes numel 32 34 "gguf: Q8_0 tensor numel not a multiple of 32"
      "gguf: Q8_0 byte size overflow"
  | q5_0 => blockBytes numel 32 22 "gguf: Q5_0 tensor numel not a multiple of 32"
      "gguf: Q5_0 byte size overflow"
  | q4_k => blockBytes numel 256 144 "gguf: Q4_K tensor numel not a multiple of 256"
      "gguf: Q4_K byte size overflow"
  | q6_k => blockBytes numel 256 210 "gguf: Q6_K tensor numel not a multiple of 256"
      "gguf: Q6_K byte size overflow"
  | other _ => .error (.err (.malformed "gguf: byte size unknown for unsupported ggml_type"))

end GgufTensorType

/-- An array of primitives, as the packed bytes of its elements. -/
structure GgufArray where
  elemType : GgufValueType
  len : UInt64
  data : List UInt8
  deriving DecidableEq, Repr

inductive GgufValue where
  | u8 (v : UInt8)
  | i8 (v : Int8)
  | u16 (v : UInt16)
  | i16 (v : Int16)
  | u32 (v : UInt32)
  | i32 (v : Int32)
  | f32 (bits : UInt32)
  | bool (v : Bool)
  | string (v : String)
  | u64 (v : UInt64)
  | i64 (v : Int64)
  | f64 (bits : UInt64)
  | array (v : GgufArray)
  deriving DecidableEq, Repr

structure GgufTensor where
  name : String
  shape : List UInt64
  dtype : GgufTensorType
  bytes : List UInt8
  deriving DecidableEq, Repr

structure GgufFile where
  version : UInt32
  metadata : BTreeMap GgufValue
  tensors : List GgufTensor
  byName : BTreeMap Nat

namespace GgufFile

/-- The index comes from `parse`, so it is in bounds for a parsed file. -/
def tensor (g : GgufFile) (name : String) : Res (Option GgufTensor) :=
  match g.byName[name]? with
  | some i => do
    let t ← Outcome.index g.tensors i
    pure (some t)
  | none => pure none

def metadataU32 (g : GgufFile) (key : String) : Res UInt32 :=
  match g.metadata[key]? with
  | some (.u32 v) => .ok v
  | some _ => .error (.err (.malformed "gguf: metadata is not U32"))
  | none => .error (.err (.malformed "gguf: metadata key missing"))

def metadataU64 (g : GgufFile) (key : String) : Res UInt64 :=
  match g.metadata[key]? with
  | some (.u64 v) => .ok v
  | some (.u32 v) => .ok v.toUInt64
  | some _ => .error (.err (.malformed "gguf: metadata is not U64"))
  | none => .error (.err (.malformed "gguf: metadata key missing"))

def metadataStr (g : GgufFile) (key : String) : Res String :=
  match g.metadata[key]? with
  | some (.string s) => .ok s
  | some _ => .error (.err (.malformed "gguf: metadata is not String"))
  | none => .error (.err (.malformed "gguf: metadata key missing"))

end GgufFile

/-- The product of a shape's dims, or `none` when a partial product leaves `u64`. -/
def checkedNumel (shape : List UInt64) : Res Nat :=
  shape.foldlM
    (fun numel dim =>
      Outcome.okOr (Outcome.checked (numel * dim.toNat))
        (.overflow "gguf: shape product overflows u64"))
    1

end VitniTensor
