import VitniTensor.Error
import VitniTensor.F32
import VitniTensor.Lib.LittleEndian
import Mathlib.Algebra.BigOperators.Group.List.Basic

/-!
# Tensors

Shapes, strides, storage and the constructors of `Tensor`. Every tensor comes from a
constructor, so what the constructors guarantee is a field of the type: row-major strides,
no offset, a dtype that matches the storage and as many elements as the shape says.
-/

namespace VitniTensor

open Outcome

inductive DType where
  | f32 | f16 | bf16 | u32 | i64 | q4_0 | q8_0 | q4_k | q6_k
  deriving DecidableEq, Repr

def DType.asStr : DType → String
  | f32 => "f32"
  | f16 => "f16"
  | bf16 => "bf16"
  | u32 => "u32"
  | i64 => "i64"
  | q4_0 => "q4_0"
  | q8_0 => "q8_0"
  | q4_k => "q4_k"
  | q6_k => "q6_k"

/-- The bytes of `numel` elements, before the check for overflow. -/
def DType.bytesOf : DType → Nat → Nat
  | f32, numel | u32, numel => numel * 4
  | f16, numel | bf16, numel => numel * 2
  | i64, numel => numel * 8
  | q4_0, numel => numel / 32 * 18
  | q8_0, numel => numel / 32 * 34
  | q4_k, numel => numel / 256 * 144
  | q6_k, numel => numel / 256 * 210

def DType.bytesForNumel (dtype : DType) (numel : Nat) : Res Nat :=
  word (dtype.bytesOf numel)

inductive Device where
  | cpu
  | gpu (index : UInt8)
  deriving DecidableEq, Repr

/-! ### Shapes -/

def maxRank : Nat := 6

structure Shape where
  dims : List Nat
  rank_le : dims.length ≤ maxRank
  deriving DecidableEq

namespace Shape

def new (dims : List Nat) : Res Shape :=
  if h : dims.length > maxRank then .error (.err (.tooManyDims dims.length maxRank))
  else .ok ⟨dims, Nat.le_of_not_lt h⟩

/-- `saturating_mul`. -/
def saturatingMul (a b : Nat) : Nat :=
  min (a * b) (wordSize - 1)

def numel (s : Shape) : Nat :=
  s.dims.foldl saturatingMul 1

/-- Row-major strides, computed from the last dim to the first. -/
def stridesOf : List Nat → Res (List Nat)
  | [] => .ok []
  | [_] => .ok [1]
  | _ :: d :: dims => do
    let rest ← stridesOf (d :: dims)
    let next ← index rest 0
    let stride ← word (next * d)
    pure (stride :: rest)

def contiguousStrides (s : Shape) : Res (List Nat) :=
  stridesOf s.dims

/-- The first stride is the product of the other dims. -/
theorem stridesOf_head {d : Nat} {dims strides : List Nat} (h : stridesOf (d :: dims) = .ok strides) :
    ∃ rest, strides = dims.prod :: rest := by
  induction dims generalizing d strides with
  | nil =>
    cases h
    exact ⟨[], rfl⟩
  | cons e dims ih =>
    rw [stridesOf] at h
    obtain ⟨rest, tail, h⟩ := bind_eq_ok.mp h
    obtain ⟨more, rfl⟩ := ih tail
    rw [index_of_lt (by simp), ok_bind] at h
    obtain ⟨stride, product, h⟩ := bind_eq_ok.mp h
    cases h
    obtain ⟨-, rfl⟩ := word_eq_ok.mp product
    exact ⟨_, by rw [List.prod_cons, Nat.mul_comm]; rfl⟩

/-- Dropping a nonempty last dim keeps the strides within a word. -/
theorem stridesOf_dropLast {dims strides : List Nat} {last : Nat} (positive : 0 < last)
    (h : stridesOf (dims ++ [last]) = .ok strides) : ∃ strides', stridesOf dims = .ok strides' := by
  induction dims generalizing strides with
  | nil => exact ⟨[], rfl⟩
  | cons d dims ih =>
    cases dims with
    | nil => exact ⟨[1], rfl⟩
    | cons e dims =>
      rw [List.cons_append, List.cons_append, stridesOf] at h
      obtain ⟨rest, tail, h⟩ := bind_eq_ok.mp h
      obtain ⟨short, eq⟩ := ih tail
      obtain ⟨more, rfl⟩ := stridesOf_head tail
      obtain ⟨more', rfl⟩ := stridesOf_head eq
      rw [index_of_lt (by simp), ok_bind] at h
      obtain ⟨stride, product, -⟩ := bind_eq_ok.mp h
      obtain ⟨small, -⟩ := word_eq_ok.mp product
      have smaller : dims.prod * e < wordSize := by
        refine Nat.lt_of_le_of_lt ?_ small
        simp only [List.getElem_cons_zero, List.prod_append, List.prod_singleton]
        exact Nat.mul_le_mul_right e (Nat.le_mul_of_pos_right _ positive)
      refine ⟨dims.prod * e :: dims.prod :: more', ?_⟩
      rw [stridesOf, eq, ok_bind, index_of_lt (by simp), ok_bind]
      simp only [List.getElem_cons_zero]
      rw [word_of_lt smaller, ok_bind]
      rfl

/-- Where the count does not saturate, the last dim divides it. -/
theorem numel_append {dims : List Nat} {last : Nat} (rank : (dims ++ [last]).length ≤ maxRank)
    (rank' : dims.length ≤ maxRank) (small : numel ⟨dims ++ [last], rank⟩ < wordSize - 1) :
    numel ⟨dims ++ [last], rank⟩ = numel ⟨dims, rank'⟩ * last := by
  simp only [numel, List.foldl_append, List.foldl_cons, List.foldl_nil, saturatingMul] at small ⊢
  omega

/-- The count of elements is their product, cut off at the largest word. -/
theorem numel_eq_min (s : Shape) : s.numel = min s.dims.prod (wordSize - 1) := by
  have hfold : ∀ (dims : List Nat) (n : Nat),
      dims.foldl saturatingMul (min n (wordSize - 1)) = min (n * dims.prod) (wordSize - 1) := by
    intro dims
    induction dims with
    | nil =>
      intro n
      rw [List.foldl_nil, List.prod_nil, Nat.mul_one]
    | cons d dims ih =>
      intro n
      -- a count that is cut off stays so, unless a dim is 0
      have hstep : saturatingMul (min n (wordSize - 1)) d = min (n * d) (wordSize - 1) := by
        unfold saturatingMul
        rcases Nat.eq_zero_or_pos d with rfl | hd
        · rw [Nat.mul_zero, Nat.mul_zero]
        · rcases Nat.le_total n (wordSize - 1) with hn | hn
          · rw [Nat.min_eq_left hn]
          · have hcut := Nat.le_mul_of_pos_right (wordSize - 1) hd
            have hlarge := Nat.le_mul_of_pos_right n hd
            rw [Nat.min_eq_right hn, Nat.min_eq_right hcut, Nat.min_eq_right (Nat.le_trans hn hlarge)]
      rw [List.foldl_cons, hstep, ih, List.prod_cons, Nat.mul_assoc]
  have hstart : min 1 (wordSize - 1) = 1 := by decide
  have hall := hfold s.dims 1
  rw [hstart, Nat.one_mul] at hall
  exact hall

end Shape

/-! ### Storage -/

/-- The buffers that the tensor constructors fill. Zeros of a dtype that is neither `F32` nor `U32`
are known by the number of their elements. -/
inductive Storage (F : Type) where
  | f32 (data : List F)
  | u32 (data : List UInt32)
  | zeroed (dtype : DType) (numel : Nat) (other : dtype ≠ .f32 ∧ dtype ≠ .u32)
  | gpu (handle : UInt32) (numel : Nat) (dtype : DType)

namespace Storage

variable {F : Type}

def dtype : Storage F → DType
  | f32 _ => .f32
  | u32 _ => .u32
  | zeroed dtype _ _ => dtype
  | gpu _ _ dtype => dtype

def numel : Storage F → Nat
  | f32 data => data.length
  | u32 data => data.length
  | zeroed _ numel _ => numel
  | gpu _ numel _ => numel

/-- `as_bytes` of the CPU storages: little-endian words. -/
def asBytes [F32 F] : Storage F → Option (List UInt8)
  | f32 data => some (data.flatMap fun x => LittleEndian.toBytes 4 (F32.toBits x).toNat)
  | u32 data => some (data.flatMap fun v => LittleEndian.toBytes 4 v.toNat)
  | zeroed dtype numel _ => some (List.replicate (dtype.bytesOf numel) 0)
  | gpu _ _ _ => none

/-- Zeros of any dtype. -/
def zeros [F32 F] : DType → Nat → Storage F
  | .f32, numel => .f32 (List.replicate numel F32.zero)
  | .u32, numel => .u32 (List.replicate numel 0)
  | .f16, numel => .zeroed .f16 numel (by decide)
  | .bf16, numel => .zeroed .bf16 numel (by decide)
  | .i64, numel => .zeroed .i64 numel (by decide)
  | .q4_0, numel => .zeroed .q4_0 numel (by decide)
  | .q8_0, numel => .zeroed .q8_0 numel (by decide)
  | .q4_k, numel => .zeroed .q4_k numel (by decide)
  | .q6_k, numel => .zeroed .q6_k numel (by decide)

@[simp] theorem dtype_zeros [F32 F] (dtype : DType) (numel : Nat) : (zeros dtype numel : Storage F).dtype = dtype := by
  cases dtype <;> rfl

@[simp] theorem numel_zeros [F32 F] (dtype : DType) (numel : Nat) : (zeros dtype numel : Storage F).numel = numel := by
  cases dtype with
  | f32 => exact List.length_replicate
  | u32 => exact List.length_replicate
  | _ => rfl

end Storage

structure Tensor (F : Type) where
  storage : Storage F
  shape : Shape
  strides : List Nat
  offset : Nat
  dtype : DType
  device : Device
  rowMajor : shape.contiguousStrides = .ok strides
  atStart : offset = 0
  tagged : storage.dtype = dtype
  filled : storage.numel = shape.numel

namespace Tensor

variable {F : Type}

/-- Where every constructor puts the first element. -/
theorem offset_zero : (0 : Nat) = 0 := rfl

def fromF32 (data : List F) (shape : Shape) : Res (Tensor F) :=
  if filled : data.length ≠ shape.numel then
    .error (.err (.invalidShape "from_f32: data.len() != shape.numel()"))
  else
    match rowMajor : shape.contiguousStrides with
    | .error stop => .error stop
    | .ok strides =>
      .ok ⟨.f32 data, shape, strides, 0, .f32, .cpu, rowMajor, rfl, rfl, not_not.mp filled⟩

def fromU32 (data : List UInt32) (shape : Shape) : Res (Tensor F) :=
  if filled : data.length ≠ shape.numel then
    .error (.err (.invalidShape "from_u32: data.len() != shape.numel()"))
  else
    match rowMajor : shape.contiguousStrides with
    | .error stop => .error stop
    | .ok strides =>
      .ok ⟨.u32 data, shape, strides, 0, .u32, .cpu, rowMajor, rfl, rfl, not_not.mp filled⟩

/-- The bytes are counted, and then allocated as words of four. -/
def zeros [F32 F] (shape : Shape) (dtype : DType) : Res (Tensor F) := do
  let nbytes ← dtype.bytesForNumel shape.numel
  if (nbytes + 3) / 4 * 4 < 2 ^ 63 then
    match rowMajor : shape.contiguousStrides with
    | .error stop => .error stop
    | .ok strides =>
      .ok ⟨.zeros dtype shape.numel, shape, strides, 0, dtype, .cpu, rowMajor, rfl, Storage.dtype_zeros ..,
        Storage.numel_zeros ..⟩
  else .error (.panic .capacityOverflow)

def isContiguous (t : Tensor F) : Res Bool := do
  let expected ← t.shape.contiguousStrides
  pure (t.strides = expected ∧ t.offset = 0)

@[simp] theorem isContiguous_eq (t : Tensor F) : t.isContiguous = .ok true := by
  rw [isContiguous, t.rowMajor, ok_bind]
  simp [t.atStart, pure, Except.pure]

theorem fromF32_ok {data : List F} {shape : Shape} {strides : List Nat}
    (filled : data.length = shape.numel) (rowMajor : shape.contiguousStrides = .ok strides) :
    ∃ t, fromF32 data shape = .ok t := by
  unfold fromF32
  rw [dif_neg (not_not_intro filled)]
  split
  next stop eq => rw [rowMajor] at eq; cases eq
  next => exact ⟨_, rfl⟩

theorem fromU32_ok {data : List UInt32} {shape : Shape} {strides : List Nat}
    (filled : data.length = shape.numel) (rowMajor : shape.contiguousStrides = .ok strides) :
    ∃ t : Tensor F, fromU32 data shape = .ok t := by
  unfold fromU32
  rw [dif_neg (not_not_intro filled)]
  split
  next stop eq => rw [rowMajor] at eq; cases eq
  next => exact ⟨_, rfl⟩

theorem fromF32_eq_ok {data : List F} {shape : Shape} {t : Tensor F} (h : fromF32 data shape = .ok t) :
    t.storage = .f32 data ∧ t.shape = shape ∧ t.dtype = .f32 ∧ t.device = .cpu := by
  unfold fromF32 at h
  split at h
  next => cases h
  next =>
    split at h
    next => cases h
    next =>
      cases h
      exact ⟨rfl, rfl, rfl, rfl⟩

theorem fromF32_shape {data : List F} {shape : Shape} {t : Tensor F} (h : fromF32 data shape = .ok t) : t.shape = shape :=
  (fromF32_eq_ok h).2.1

/-- The strides of a matrix have its width in a word. -/
theorem width_lt {t : Tensor F} {m n : Nat} (h : t.shape.dims = [m, n]) : n < wordSize := by
  have hrowMajor := t.rowMajor
  unfold Shape.contiguousStrides at hrowMajor
  rw [h] at hrowMajor
  obtain ⟨rest, hrest, hrowMajor⟩ := bind_eq_ok.mp hrowMajor
  cases hrest
  rw [index_of_lt (by decide), ok_bind] at hrowMajor
  obtain ⟨stride, hstride, -⟩ := bind_eq_ok.mp hrowMajor
  have hword := (word_eq_ok.mp hstride).1
  simpa only [List.getElem_cons_zero, Nat.one_mul] using hword

theorem fromU32_eq_ok {data : List UInt32} {shape : Shape} {t : Tensor F}
    (h : fromU32 data shape = .ok t) :
    t.storage = .u32 data ∧ t.shape = shape ∧ t.dtype = .u32 ∧ t.device = .cpu := by
  unfold fromU32 at h
  split at h
  next => cases h
  next =>
    split at h
    next => cases h
    next =>
      cases h
      exact ⟨rfl, rfl, rfl, rfl⟩

theorem zeros_eq_ok [F32 F] {shape : Shape} {dtype : DType} {t : Tensor F} (h : zeros shape dtype = .ok t) :
    t.storage = .zeros dtype shape.numel ∧ t.dtype = dtype ∧ t.device = .cpu ∧
      (dtype.bytesOf shape.numel + 3) / 4 * 4 < 2 ^ 63 := by
  unfold zeros DType.bytesForNumel at h
  obtain ⟨nbytes, hbytes, h⟩ := bind_eq_ok.mp h
  obtain ⟨-, rfl⟩ := word_eq_ok.mp hbytes
  split at h
  next hfits =>
    split at h
    next => cases h
    next =>
      cases h
      exact ⟨rfl, rfl, rfl, hfits⟩
  next => cases h

theorem fromF32_returns {data : List F} {shape : Shape} {strides : List Nat}
    (h : shape.contiguousStrides = .ok strides) : (fromF32 data shape).Returns := by
  by_cases hfilled : data.length = shape.numel
  · obtain ⟨z, hz⟩ := fromF32_ok hfilled h
    rw [hz]
    exact returns_ok z
  · unfold fromF32
    rw [dif_pos hfilled]
    exact returns_err _

theorem fromU32_returns {data : List UInt32} {shape : Shape} {strides : List Nat}
    (h : shape.contiguousStrides = .ok strides) : (fromU32 data shape : Res (Tensor F)).Returns := by
  by_cases hfilled : data.length = shape.numel
  · obtain ⟨z, hz⟩ := @fromU32_ok F data shape strides hfilled h
    rw [hz]
    exact returns_ok z
  · unfold fromU32
    rw [dif_pos hfilled]
    exact returns_err _

/-! ### Tensors of known contents -/

/-- A CPU tensor of these dims and floats. -/
structure Is (dims : List Nat) (xs : List F) (t : Tensor F) : Prop where
  dims : t.shape.dims = dims
  cpu : t.device = .cpu
  data : t.storage = .f32 xs

namespace Is

variable {dims : List Nat} {xs ys : List F} {t : Tensor F}

theorem dtype (h : t.Is dims xs) : t.dtype = .f32 := by
  rw [← t.tagged, h.data]
  rfl

theorem length (h : t.Is dims xs) : xs.length = t.shape.numel := by
  have hfilled := t.filled
  rw [h.data] at hfilled
  exact hfilled

/-- Other data under the shape of the tensor. -/
theorem fromF32_ok (h : t.Is dims xs) (hys : ys.length = xs.length) :
    ∃ z, fromF32 ys t.shape = .ok z ∧ z.Is dims ys := by
  obtain ⟨z, hz⟩ := Tensor.fromF32_ok (hys.trans h.length) t.rowMajor
  obtain ⟨hdata, hshape, -, hcpu⟩ := fromF32_eq_ok hz
  exact ⟨z, hz, by rw [hshape]; exact h.dims, hcpu, hdata⟩

/-- Dims and floats determine the tensor. -/
theorem unique {u : Tensor F} (ht : t.Is dims xs) (hu : u.Is dims xs) : t = u := by
  have hdtype : t.dtype = u.dtype := ht.dtype.trans hu.dtype.symm
  have hstart : t.offset = u.offset := t.atStart.trans u.atStart.symm
  have hshape : t.shape = u.shape := by
    have hdims := ht.dims.trans hu.dims.symm
    cases hleft : t.shape
    cases hright : u.shape
    rw [hleft, hright] at hdims
    cases hdims
    rfl
  have hstrides : t.strides = u.strides := by
    have hrow := t.rowMajor
    rw [hshape, u.rowMajor] at hrow
    exact (Except.ok.inj hrow).symm
  obtain ⟨-, hcpu, hdata⟩ := ht
  obtain ⟨-, hcpu', hdata'⟩ := hu
  cases t
  cases u
  congr
  · exact hdata.trans hdata'.symm
  · exact hcpu.trans hcpu'.symm

end Is

/-- A matrix that fits in memory. -/
theorem matrix_ok {data : List F} {m n : Nat} (hdata : data.length = m * n) (hcells : m * n < wordSize)
    (hn : n < wordSize) : ∃ t, (Shape.new [m, n] >>= fun shape => fromF32 data shape) = .ok t ∧
      t.Is [m, n] data := by
  have hrank : [m, n].length ≤ maxRank := (by decide : 2 ≤ 6)
  have hnumel : Shape.numel ⟨[m, n], hrank⟩ = m * n := by
    rcases Nat.eq_zero_or_pos n with rfl | hpos
    · simp [Shape.numel, Shape.saturatingMul]
    · have hm : m ≤ m * n := Nat.le_mul_of_pos_right m hpos
      have hfirst : min (1 * m) (wordSize - 1) = m := by omega
      simp only [Shape.numel, Shape.saturatingMul, List.foldl_cons, List.foldl_nil, hfirst]
      omega
  have hstrides : Shape.contiguousStrides ⟨[m, n], hrank⟩ = .ok [n, 1] := by
    change (Shape.stridesOf [n] >>= fun rest => _) = _
    rw [Shape.stridesOf, ok_bind, index_of_lt (by decide : 0 < 1), ok_bind]
    simp only [List.getElem_cons_zero, Nat.one_mul]
    rw [word_of_lt hn]
    rfl
  have hnew : Shape.new [m, n] = .ok ⟨[m, n], hrank⟩ := rfl
  obtain ⟨t, ht⟩ := Tensor.fromF32_ok (hdata.trans hnumel.symm) hstrides
  obtain ⟨hstorage, hshape, -, hcpu⟩ := fromF32_eq_ok ht
  refine ⟨t, ?_, by rw [hshape], hcpu, hstorage⟩
  rw [hnew, ok_bind, ht]

end Tensor

end VitniTensor
