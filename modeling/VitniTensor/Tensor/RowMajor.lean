import VitniTensor.Lib.MixedRadix
import VitniTensor.Tensor.Basic

/-!
# Row-major strides

The strides of a shape are the weights of its dims read as radices, so a multi-index and its
position in the storage determine each other.
-/

namespace VitniTensor

open Outcome MixedRadix

/-- `Strides::is_contiguous`. -/
def Strides.isContiguous (strides : List Nat) (shape : Shape) : Res Bool := do
  let expected ← shape.contiguousStrides
  pure (strides = expected)

/-- A tensor is contiguous if its strides are and it starts at the front of its storage. -/
theorem Tensor.isContiguous_strides {F : Type} (t : Tensor F) :
    t.isContiguous = (Strides.isContiguous t.strides t.shape >>= fun c => pure (c && decide (t.offset = 0))) := by
  unfold Tensor.isContiguous Strides.isContiguous
  rw [t.rowMajor, ok_bind, ok_bind]
  simp

namespace Shape

/-- The place that a multi-index has under the strides. -/
def position (strides index : List Nat) : Nat :=
  value strides index

/-- A shorter product of positive dims is no larger. -/
theorem prod_tail_le {d : Nat} {dims : List Nat} (hd : 1 ≤ d) : dims.prod ≤ (d :: dims).prod := by
  rw [List.prod_cons]
  exact Nat.le_mul_of_pos_left _ hd

/-- The loop from the last dim to the first computes the weights. -/
theorem stridesOf_eq {dims : List Nat} (hpos : ∀ d ∈ dims, 1 ≤ d) (hfits : dims.prod < wordSize) :
    stridesOf dims = .ok (weights dims) := by
  induction dims with
  | nil => rfl
  | cons d dims ih =>
    have hfits' := Nat.lt_of_le_of_lt (prod_tail_le (hpos d List.mem_cons_self)) hfits
    have ih := ih (fun e he => hpos e (List.mem_cons_of_mem d he)) hfits'
    cases dims with
    | nil => rfl
    | cons e dims =>
      -- the stride before is the stride of `e` times `e`
      have hproduct : dims.prod * e = (e :: dims).prod := by rw [List.prod_cons, Nat.mul_comm]
      rw [stridesOf, ih, ok_bind, index_of_lt (by simp), ok_bind]
      simp only [weights, List.getElem_cons_zero, hproduct]
      rw [word_of_lt hfits', ok_bind]
      rfl

/-- The count is exact as long as the product is a word. -/
theorem numel_eq_prod {s : Shape} (hfits : s.dims.prod < wordSize) : s.numel = s.dims.prod := by
  rw [numel_eq_min]
  exact Nat.min_eq_left (Nat.le_pred_of_lt hfits)

/-- The strides of a shape give every element of its storage one multi-index. -/
theorem contiguousStrides_bijective (s : Shape) (hpos : ∀ d ∈ s.dims, 1 ≤ d) (hfits : s.dims.prod < wordSize) :
    ∃ strides, s.contiguousStrides = .ok strides ∧ strides.length = s.dims.length ∧
      Set.BijOn (position strides) {index | List.Forall₂ (· < ·) index s.dims} (Set.Iio s.numel) ∧
      s.numel = s.dims.prod ∧
      ∀ other : List Nat, other.length = s.dims.length →
        Strides.isContiguous other s = .ok (decide (other = strides)) := by
  have hstrides : s.contiguousStrides = .ok (weights s.dims) := stridesOf_eq hpos hfits
  have hcount := numel_eq_prod hfits
  refine ⟨weights s.dims, hstrides, length_weights s.dims, ?_, hcount, ?_⟩
  · rw [hcount]
    exact bijOn_value s.dims
  · intro other _
    unfold Strides.isContiguous
    rw [hstrides, ok_bind]
    rfl

/-- Of shape `[2, 3, 4]`, element `[1, 2, 3]` is the last. -/
theorem contiguousStrides_bijective_cube :
    ∃ strides, contiguousStrides ⟨[2, 3, 4], (by decide : 3 ≤ 6)⟩ = .ok strides ∧ strides.length = 3 ∧
      Set.BijOn (position strides) {index | List.Forall₂ (· < ·) index [2, 3, 4]}
        (Set.Iio (numel ⟨[2, 3, 4], (by decide : 3 ≤ 6)⟩)) ∧
      numel ⟨[2, 3, 4], (by decide : 3 ≤ 6)⟩ = 24 ∧
      ∀ other : List Nat, other.length = 3 →
        Strides.isContiguous other ⟨[2, 3, 4], (by decide : 3 ≤ 6)⟩ = .ok (decide (other = strides)) :=
  contiguousStrides_bijective ⟨[2, 3, 4], (by decide : 3 ≤ 6)⟩ (by decide) (by decide)

end Shape

/-- The elements in the storage of a tensor have one multi-index each. -/
theorem Tensor.position_bijOn {F : Type} (t : Tensor F) (hpos : ∀ d ∈ t.shape.dims, 1 ≤ d)
    (hfits : t.shape.dims.prod < wordSize) :
    Set.BijOn (Shape.position t.strides) {index | List.Forall₂ (· < ·) index t.shape.dims}
      (Set.Iio t.storage.numel) := by
  have hweights := t.rowMajor.symm.trans (Shape.stridesOf_eq hpos hfits)
  rw [t.filled, Shape.numel_eq_prod hfits, Except.ok.inj hweights]
  exact bijOn_value t.shape.dims

end VitniTensor
