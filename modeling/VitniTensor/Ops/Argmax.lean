import VitniTensor.Tensor.Basic

/-!
# Argmax along the last dimension

Ties keep the first index.
-/

namespace VitniTensor

open Outcome

variable {F : Type} [F32 F]

/-- The scan of one row, past the elements before index `i`. -/
def argmaxScan : (i : Nat) → List F → (best : Nat × F) → Nat × F
  | _, [], best => best
  | i, v :: row, best =>
    argmaxScan (i + 1) row (if F32.lt best.2 v then (i, v) else best)

def argmaxRow (row : List F) : Res UInt32 := do
  let first ← index row 0
  let best := argmaxScan 1 (row.drop 1) (0, first)
  pure (UInt32.ofNat best.1)

/-- The loop over the rows of width `last`. -/
def argmaxRows (xs : List F) (last rows : Nat) : Res (List UInt32) :=
  collectRange rows fun r => do
    let row ← slice xs (r * last) ((r + 1) * last)
    argmaxRow row

namespace Tensor

def argmaxLastDim (t : Tensor F) : Res (Tensor F) := do
  if t.dtype ≠ .f32 then
    .error (.err (.dtypeMismatch "f32" t.dtype.asStr))
  else do
    let contiguous ← t.isContiguous
    if !contiguous then
      .error (.err (.notImplemented "argmax" "a contiguous layout is required"))
    else
      match t.storage with
      | .f32 xs => do
        let dims := t.shape.dims
        if dims.isEmpty then
          .error (.err (.invalidShape "argmax requires rank ≥ 1"))
        else do
          let last := dims.getLastD 0
          let rows ← div xs.length last
          let out ← argmaxRows xs last rows
          if rows = 1 then do
            let shape ← Shape.new [1]
            fromU32 out shape
          else do
            let shape ← Shape.new dims.dropLast
            fromU32 out shape
      | _ => .error (.err (.notImplemented "argmax" "CPU-only"))

end Tensor

/-- The first index of an argmax tensor. -/
def argmaxU32 (t : Tensor F) : Res UInt32 :=
  match t.storage.asBytes with
  | none => .error (.panic .explicit)
  | some bytes => do
    let word ← slice bytes 0 4
    pure (UInt32.ofNat (LittleEndian.ofBytes word))

/-- The token that a greedy driver picks: `argmax_u32(&logits.argmax_last_dim()?)`. -/
def Tensor.pick (logits : Tensor F) : Res UInt32 := do
  let argmax ← logits.argmaxLastDim
  argmaxU32 argmax

/-- A CPU `F32` tensor that fits in memory, with at least one row and a nonempty last dim. -/
structure Tensor.IsLogits (t : Tensor F) : Prop where
  cpu : ∃ data, t.storage = .f32 data
  memory : t.shape.numel * 4 < 2 ^ 63
  last : 0 < t.shape.dims.getLastD 0
  row : 0 < t.shape.numel

theorem returns_argmaxRow {row : List F} (nonempty : 0 < row.length) : ∃ v, argmaxRow row = .ok v := by
  unfold argmaxRow
  rw [index_of_lt nonempty, ok_bind]
  exact ⟨_, rfl⟩

/-- Every row that lies in the data has an argmax. -/
theorem argmaxRows_ok {xs : List F} {last rows : Nat} (positive : 0 < last)
    (inside : rows * last ≤ xs.length) : ∃ out, argmaxRows xs last rows = .ok out ∧ out.length = rows := by
  refine collectFrom_ok fun r _ high => ?_
  obtain ⟨row, eq, width⟩ := slice_row (show r < rows by omega) inside
  rw [eq, ok_bind]
  exact returns_argmaxRow (by omega)

/-- The first word of a `U32` tensor is its first entry. -/
theorem argmaxU32_head {a : Tensor F} {i : UInt32} {picks : List UInt32} (storage : a.storage = .u32 (i :: picks)) :
    argmaxU32 a = .ok i := by
  have width : (LittleEndian.toBytes 4 i.toNat).length = 4 := LittleEndian.length_toBytes 4 _
  unfold argmaxU32
  rw [storage]
  simp only [Storage.asBytes, List.flatMap_cons]
  rw [slice_of_le (Nat.zero_le _) (by rw [List.length_append, width]; exact Nat.le_add_right _ _), ok_bind,
    List.drop_zero, Nat.sub_zero, List.take_left' width, LittleEndian.ofBytes_toBytes i.toNat_lt,
    UInt32.ofNat_toNat]
  rfl

/-- The argmax of logits: one pick for each row of the last dimension. -/
theorem Tensor.argmaxLastDim_ok {t : Tensor F} (h : t.IsLogits) {data : List F} (storage : t.storage = .f32 data) :
    ∃ out a, argmaxRows data (t.shape.dims.getLastD 0) (data.length / t.shape.dims.getLastD 0) = .ok out ∧
      out.length = data.length / t.shape.dims.getLastD 0 ∧ 0 < out.length ∧
      data.length / t.shape.dims.getLastD 0 * t.shape.dims.getLastD 0 = data.length ∧
      t.argmaxLastDim = .ok a ∧ ∃ shape, fromU32 out shape = .ok a := by
  obtain ⟨⟨dims, rank⟩, shapeEq⟩ : ∃ s, t.shape = s := ⟨_, rfl⟩
  have rowMajor := t.rowMajor
  have filled := t.filled
  have tagged := t.tagged
  have memory := h.memory
  have last := h.last
  have row := h.row
  rw [storage] at filled tagged
  rw [shapeEq] at rowMajor filled memory last row ⊢
  rcases List.eq_nil_or_concat' dims with rfl | ⟨init, d, rfl⟩
  · simp at last
  have positive : 0 < d := by simpa using last
  have rank' : init.length ≤ maxRank := by
    have := rank
    simp only [List.length_append] at this
    omega
  have product := Shape.numel_append rank rank' (by unfold wordSize; omega)
  rw [product] at memory row filled
  have rows : data.length / d = Shape.numel ⟨init, rank'⟩ := by
    change data.length = _ at filled
    rw [filled, Nat.mul_div_cancel _ positive]
  have count : 0 < Shape.numel ⟨init, rank'⟩ := Nat.pos_of_mul_pos_right row
  have contents : data.length = data.length / d * d := by
    rw [rows]
    exact filled
  obtain ⟨out, picks, length⟩ := argmaxRows_ok positive (Nat.le_of_eq contents.symm)
  have single : ((out.length = 1 ∧ ∃ shape, Shape.new [1] = .ok shape ∧
      ∃ a : Tensor F, fromU32 out shape = .ok a) ∨ out.length ≠ 1) := by
    by_cases one : out.length = 1
    · exact .inl ⟨one, ⟨[1], by decide⟩, rfl, fromU32_ok one rfl⟩
    · exact .inr one
  obtain ⟨strides, several⟩ := Shape.stridesOf_dropLast positive rowMajor
  have tag : ¬t.dtype ≠ .f32 := not_not_intro tagged.symm
  have some_ : (init ++ [d]).isEmpty = false := by simp
  simp only [List.getLastD_concat]
  -- one row gives a tensor of shape `[1]`, several rows the shape without its last dim
  obtain ⟨a, made, shape, eq⟩ : ∃ a, t.argmaxLastDim = .ok a ∧ ∃ shape, fromU32 out shape = .ok a := by
    unfold argmaxLastDim
    rw [if_neg tag, isContiguous_eq, ok_bind, storage, shapeEq]
    simp only [Bool.not_true, Bool.false_eq_true, if_false, some_, List.getLastD_concat,
      List.dropLast_concat]
    rw [div_of_pos positive, ok_bind, picks, ok_bind, ← length]
    rcases single with ⟨one, shape, new, a, made⟩ | more
    · rw [if_pos one, new, ok_bind, made]
      exact ⟨a, rfl, shape, made⟩
    · obtain ⟨a, made⟩ : ∃ a : Tensor F, fromU32 out ⟨init, rank'⟩ = .ok a :=
        fromU32_ok (by rw [length, rows]) several
      rw [if_neg more, Shape.new, dif_neg (Nat.not_lt.mpr rank'), ok_bind, made]
      exact ⟨a, rfl, _, made⟩
  exact ⟨out, a, picks, length, by omega, contents.symm, made, shape, eq⟩

/-- Picking a token from logits never fails. -/
theorem Tensor.pick_of_isLogits {t : Tensor F} (h : t.IsLogits) : ∃ v, t.pick = .ok v := by
  obtain ⟨data, storage⟩ := h.cpu
  obtain ⟨out, a, -, -, nonempty, -, made, shape, eq⟩ := argmaxLastDim_ok h storage
  obtain ⟨first, rest, rfl⟩ := List.exists_cons_of_length_pos nonempty
  refine ⟨first, ?_⟩
  rw [pick, made, ok_bind]
  exact argmaxU32_head (Tensor.fromU32_eq_ok eq).1

end VitniTensor
