import Mathlib.Order.Bounds.Basic
import VitniTensor.Binary32
import VitniTensor.Lib.Rows
import VitniTensor.Ops.Argmax

/-!
# The greedy pick is the first maximum

The scan keeps the first index whose element no later one beats. Nothing is assumed of the
elements: a NaN never replaces the running best, and a NaN at index 0 stays.
-/

namespace VitniTensor

open Outcome Rows

variable {F : Type} [F32 F]

/-- No element is above `x`, which stands at index `i`, and none before it is at least `x`. -/
structure FirstMaximum (row : List F) (i : Nat) (x : F) : Prop where
  here : row[i]? = some x
  none_above : ∀ (j : Nat) (y : F), row[j]? = some y → ¬F32.lt x y
  none_before : ∀ (j : Nat) (y : F), j < i → row[j]? = some y → ¬F32.le x y

/-- The indices of the maximum. -/
def maxima (row : List F) : Set Nat :=
  {i | ∃ x, row[i]? = some x ∧ ∀ y ∈ row, F32.le y x}

/-! ### The scan -/

namespace FirstMaximum

variable {row : List F} {i : Nat} {x : F}

theorem lt_length (h : FirstMaximum row i x) : i < row.length :=
  List.getElem?_eq_some_iff.mp h.here |>.1

/-- One step of the scan. -/
theorem snoc (ord : OrderedFloats F) (h : FirstMaximum row i x) (v : F) :
    FirstMaximum (row ++ [v]) (if F32.lt x v then row.length else i) (if F32.lt x v then v else x) := by
  have hold : ∀ (j : Nat) (y : F), (row ++ [v])[j]? = some y → row[j]? = some y ∨ y = v := by
    intro j y hy
    rcases Nat.lt_or_ge j row.length with hj | hj
    · rw [List.getElem?_append_left hj] at hy
      exact .inl hy
    · rw [List.getElem?_append_right hj, List.getElem?_singleton] at hy
      split at hy
      next => exact .inr (Option.some.inj hy).symm
      next => cases hy
  split
  next hlt =>
    -- `v` is above the old best, so whatever reaches `v` would have been above the old best too
    obtain ⟨hle, hnot⟩ := (ord.lt_iff x v).mp hlt
    have hbelow : ∀ (j : Nat) (y : F), row[j]? = some y → ¬F32.le v y := by
      intro j y hy hvy
      apply h.none_above j y hy
      rw [ord.lt_iff]
      exact ⟨ord.trans x v y hle hvy, fun hyx => hnot (ord.trans v y x hvy hyx)⟩
    have hirrefl : ¬F32.lt v v := fun hvv => ((ord.lt_iff v v).mp hvv).2 ((ord.lt_iff v v).mp hvv).1
    constructor
    · rw [List.getElem?_append_right (Nat.le_refl _), Nat.sub_self]
      rfl
    · intro j y hy
      rcases hold j y hy with hrow | rfl
      · exact fun hvy => hbelow j y hrow ((ord.lt_iff v y).mp hvy).1
      · exact hirrefl
    · intro j y hj hy
      rw [List.getElem?_append_left hj] at hy
      exact hbelow j y hy
  next hlt =>
    constructor
    · rw [List.getElem?_append_left h.lt_length]
      exact h.here
    · intro j y hy
      rcases hold j y hy with hrow | rfl
      · exact h.none_above j y hrow
      · exact hlt
    · intro j y hj hy
      rw [List.getElem?_append_left (Nat.lt_trans hj h.lt_length)] at hy
      exact h.none_before j y hj hy

/-- The whole scan, by induction on what is left of the row. -/
theorem scan (ord : OrderedFloats F) (rest : List F) {row : List F} {best : Nat × F}
    (h : FirstMaximum row best.1 best.2) :
    FirstMaximum (row ++ rest) (argmaxScan row.length rest best).1 (argmaxScan row.length rest best).2 := by
  induction rest generalizing row best with
  | nil => simpa [argmaxScan] using h
  | cons v rest ih =>
    have hstep := h.snoc ord v
    rw [← apply_ite Prod.fst (F32.lt best.2 v) (row.length, v) best,
      ← apply_ite Prod.snd (F32.lt best.2 v) (row.length, v) best] at hstep
    have hrest := ih hstep
    rw [List.append_assoc, List.singleton_append, List.length_append, List.length_singleton] at hrest
    exact hrest

/-- Without a NaN, the first maximum is the least index of the maximum. -/
theorem isLeast (ord : OrderedFloats F) (h : FirstMaximum row i x) (numbers : ∀ y ∈ row, F32.le y y) :
    IsLeast (maxima row) i := by
  have hx := numbers x (List.mem_of_getElem? h.here)
  constructor
  · refine ⟨x, h.here, fun y hy => ?_⟩
    rcases ord.total x y hx (numbers y hy) with hxy | hyx
    · obtain ⟨j, hj⟩ := List.getElem?_of_mem hy
      by_contra hyx
      exact h.none_above j y hj ((ord.lt_iff x y).mpr ⟨hxy, hyx⟩)
    · exact hyx
  · rintro j ⟨y, hj, hmax⟩
    by_contra hlt
    exact h.none_before j y (Nat.lt_of_not_le hlt) hj (hmax x (List.mem_of_getElem? h.here))

end FirstMaximum

/-! ### One row -/

/-- The index of a row fits its 32 bits. -/
theorem argmaxRow_firstMaximum (ord : OrderedFloats F) {row : List F} (hrow : row.length ≤ 2 ^ 32) {v : UInt32}
    (h : argmaxRow row = .ok v) : ∃ x, FirstMaximum row v.toNat x := by
  unfold argmaxRow at h
  cases row with
  | nil => cases h
  | cons first rest =>
    cases h
    have hfirst : FirstMaximum [first] 0 first := by
      refine ⟨rfl, fun j y hy => ?_, fun j y hj => absurd hj (Nat.not_lt_zero j)⟩
      cases List.mem_singleton.mp (List.mem_of_getElem? hy)
      exact fun hlt => ((ord.lt_iff first first).mp hlt).2 ((ord.lt_iff first first).mp hlt).1
    have hscan : FirstMaximum ([first] ++ rest) (argmaxScan 1 rest (0, first)).1 (argmaxScan 1 rest (0, first)).2 :=
      FirstMaximum.scan ord rest hfirst
    refine ⟨(argmaxScan 1 rest (0, first)).2, ?_⟩
    have hindex := Nat.lt_of_lt_of_le hscan.lt_length hrow
    change FirstMaximum _ (UInt32.ofNat (argmaxScan 1 rest (0, first)).1).toNat _
    rw [UInt32.toNat_ofNat_of_lt' hindex]
    exact hscan

/-! ### Rows of a tensor -/

omit [F32 F] in
theorem slice_eq_row_of_ok {xs ys : List F} {last r : Nat}
    (h : (slice xs (r * last) ((r + 1) * last) : Res (List F)) = .ok ys) : ys = row last xs r := by
  obtain ⟨-, rfl⟩ := slice_eq_ok.mp h
  rw [row, Nat.succ_mul, Nat.add_sub_cancel_left]

theorem argmaxRows_row {xs : List F} {last rows : Nat} {out : List UInt32} (h : argmaxRows xs last rows = .ok out)
    {r : Nat} {v : UInt32} (hr : out[r]? = some v) : argmaxRow (row last xs r) = .ok v := by
  have hrow := (collectFrom_eq_ok h).2 r v hr
  rw [Nat.zero_add] at hrow
  obtain ⟨ys, hslice, hpick⟩ := bind_eq_ok.mp hrow
  rwa [slice_eq_row_of_ok hslice] at hpick

/-! ### Greedy picks -/

/-- For logits of machine floats, with rows that 32 bits can index: the argmax has one entry for
each row, and it depends on the row only. The entry is a first maximum of the row, and on a row
without NaN the least index of the maximum. A driver picks the entry of the first row. -/
theorem argmax_firstMaximum (t : Tensor Binary32) (h : t.IsLogits) (hlast : t.shape.dims.getLastD 0 ≤ 2 ^ 32)
    (xs : List Binary32) (hxs : t.storage = .f32 xs) :
    ∃ a picks, t.argmaxLastDim = .ok a ∧ a.storage = .u32 picks ∧
      picks.length * t.shape.dims.getLastD 0 = xs.length ∧
      (∀ (r : Nat) (i : UInt32), picks[r]? = some i →
        argmaxRow (row (t.shape.dims.getLastD 0) xs r) = .ok i ∧
        (∃ x, FirstMaximum (row (t.shape.dims.getLastD 0) xs r) i.toNat x) ∧
        ((∀ x ∈ row (t.shape.dims.getLastD 0) xs r, ¬x.isNaN) →
          IsLeast (maxima (row (t.shape.dims.getLastD 0) xs r)) i.toNat)) ∧
      ∃ i, picks[0]? = some i ∧ t.pick = .ok i := by
  obtain ⟨picks, a, hrows, hlength, hnonempty, hwhole, hrun, shape, hmade⟩ := t.argmaxLastDim_ok h hxs
  obtain ⟨hstorage, -⟩ := Tensor.fromU32_eq_ok hmade
  refine ⟨a, picks, hrun, hstorage, by rw [hlength, hwhole], fun r i hr => ?_, ?_⟩
  · have hrow := argmaxRows_row hrows hr
    have hwidth : (row (t.shape.dims.getLastD 0) xs r).length ≤ 2 ^ 32 := by
      apply Nat.le_trans _ hlast
      exact List.length_take_le _ _
    obtain ⟨x, hfirst⟩ := argmaxRow_firstMaximum Binary32.ordered hwidth hrow
    refine ⟨hrow, ⟨x, hfirst⟩, fun hnumbers => ?_⟩
    apply hfirst.isLeast Binary32.ordered
    exact fun y hy => (Binary32.le_self_iff y).mpr (hnumbers y hy)
  · obtain ⟨i, rest, rfl⟩ := List.exists_cons_of_length_pos hnonempty
    refine ⟨i, rfl, ?_⟩
    rw [Tensor.pick, hrun, ok_bind]
    exact argmaxU32_head hstorage

/-- Two rows of two columns: a tie, and a NaN before a number. -/
def twoRows : Tensor Binary32 where
  storage := .f32 [⟨0x3F800000⟩, ⟨0x3F800000⟩, ⟨0x7FC00000⟩, ⟨0x3F800000⟩]
  shape := ⟨[2, 2], by decide⟩
  strides := [2, 1]
  offset := 0
  dtype := .f32
  device := .cpu
  rowMajor := by decide
  atStart := Tensor.offset_zero
  tagged := rfl
  filled := rfl

theorem twoRows_isLogits : twoRows.IsLogits where
  cpu := ⟨_, rfl⟩
  memory := by decide
  last := by decide
  row := by decide

theorem argmax_twoRows : ∃ a picks, twoRows.argmaxLastDim = .ok a ∧ a.storage = .u32 picks ∧ picks.length * 2 = 4 :=
  have ⟨a, picks, hrun, hstorage, hlength, _⟩ :=
    argmax_firstMaximum twoRows twoRows_isLogits (by decide) _ rfl
  ⟨a, picks, hrun, hstorage, hlength⟩

end VitniTensor
