import VitniTensor.Gpu.Lanes

/-!
# The tree in place

`fixed_tree` of the crate and of the CUDA kernels, over any binary operation: no law is assumed of
it. The kernels count in `unsigned`, which wraps for an array of `2^32 - 1` cells; they call the
function for eight lanes, for the chunks of a row and for its blocks.
-/

namespace VitniTensor

open Outcome Loop

/-- Floats of which only the sum is known. -/
@[reducible] def F32.ofOp {α : Type} (op : α → α → α) (zero : α) : F32 α where
  ofBits _ := zero
  toBits _ := 0
  add := op
  sub a _ := a
  mul a _ := a
  div a _ := a
  neg a := a
  lt _ _ := false
  le _ _ := false
  ofInt _ := zero
  toI32 _ := 0
  expf a := a
  powf a _ := a
  cosf a := a
  sinf a := a
  sqrtf a := a

section Crate

variable {F : Type} [F32 F]

/-- A level halves `len`: with more levels than it needs, the `while` loop does the same. -/
theorem treeLevels_enough {levels len : Nat} (h : len ≤ levels + 1) (more : Nat) (part : List F) :
    treeLevels (levels + more) len part = treeLevels levels len part := by
  induction levels generalizing len part with
  | zero =>
    have hdone : ¬len > 1 := by omega
    rw [Nat.zero_add]
    cases more with
    | zero => rfl
    | succ more => exact if_neg hdone
  | succ levels ih =>
    rw [Nat.succ_add, treeLevels, treeLevels]
    split
    next hmore =>
      have hnext : treeLevels (levels + more) ((len + 1) / 2) = treeLevels levels ((len + 1) / 2) :=
        funext fun part => ih (by omega) part
      rw [hnext]
    next hone => rfl

end Crate

namespace Device

variable {F : Type} [F32 F]

/-- A level, with `unsigned` places. -/
def unsignedLevel (len : UInt32) (part : Nat → F) : Nat → F :=
  loop ((len + 1) / 2).toNat (fun t part =>
    let u := 2 * UInt32.ofNat t
    Function.update part t
      (if u + 1 < len then F32.add (part u.toNat) (part (u + 1).toNat) else part u.toNat)) part

def unsignedLevels : (levels : Nat) → UInt32 → (Nat → F) → Nat → F
  | 0, _, part => part
  | levels + 1, len, part =>
    if len > 1 then unsignedLevels levels ((len + 1) / 2) (unsignedLevel len part) else part

/-- `fixed_tree(part, len)`. -/
def unsignedTree (part : Nat → F) (len : UInt32) : F :=
  if len = 0 then F32.zero else unsignedLevels len.toNat len part 0

/-- `len + 1u` does not wrap. -/
def Countable (len : UInt32) : Prop :=
  len.toNat + 1 < 2 ^ 32

theorem Countable.half {len : UInt32} (h : Countable len) : ((len + 1) / 2).toNat = (len.toNat + 1) / 2 := by
  unfold Countable at h
  rw [UInt32.toNat_div, UInt32.toNat_add]
  change (len.toNat + 1) % 2 ^ 32 / 2 = _
  rw [Nat.mod_eq_of_lt h]

theorem Countable.next {len : UInt32} (h : Countable len) : Countable ((len + 1) / 2) := by
  have hhalf := h.half
  unfold Countable at h ⊢
  omega

theorem unsignedLevel_eq {len : UInt32} (h : Countable len) (part : Nat → F) :
    unsignedLevel len part = treeLevel len.toNat part := by
  unfold unsignedLevel treeLevel
  rw [h.half]
  apply loop_congr
  intro t ht part
  have hu : (2 * UInt32.ofNat t).toNat = 2 * t := by
    rw [UInt32.toNat_mul, UInt32.toNat_ofNat']
    change 2 * (t % 2 ^ 32) % 2 ^ 32 = 2 * t
    unfold Countable at h
    omega
  have hu1 : (2 * UInt32.ofNat t + 1).toNat = 2 * t + 1 := by
    rw [UInt32.toNat_add, hu]
    change (2 * t + 1) % 2 ^ 32 = 2 * t + 1
    unfold Countable at h
    omega
  simp only [UInt32.lt_iff_toNat_lt, hu, hu1]

theorem unsignedLevels_eq (levels : Nat) {len : UInt32} (h : Countable len) (part : Nat → F) :
    unsignedLevels levels len part = treeLevels levels len.toNat part := by
  induction levels generalizing len part with
  | zero => rfl
  | succ levels ih =>
    unfold unsignedLevels treeLevels
    rw [ih h.next, unsignedLevel_eq h, h.half]
    exact if_congr UInt32.lt_iff_toNat_lt rfl rfl

theorem unsignedTree_eq {len : UInt32} (h : Countable len) (part : Nat → F) :
    unsignedTree part len = PairTree.tree F32.add F32.zero (cells part len.toNat) := by
  rw [← fixedTree_eq]
  unfold unsignedTree fixedTree
  rw [unsignedLevels_eq _ h]
  exact if_congr UInt32.toNat_inj.symm rfl rfl

end Device

/-- For every operation and every list: `fixed_tree` of the crate ends, and it returns the pairwise tree of
the list. After every turn of a level, the cells behind it are those of the next level and the others are still
the old ones. The tree combines the elements as a bracketing says that depends on their number only and
has every place once, in order. `fixed_tree` of the kernels returns the same tree of its cells. -/
theorem fixedTree_pairwise {α : Type} (op : α → α → α) (zero : α) (part : List α) :
    @fixedTree α (F32.ofOp op zero) part = .ok (PairTree.tree op zero part) ∧
    (∀ more, @treeLevels α (F32.ofOp op zero) (part.length + more) part.length part =
      @treeLevels α (F32.ofOp op zero) part.length part.length part) ∧
    (∀ len t, len ≤ part.length → t ≤ (len + 1) / 2 →
      ∃ p, forRange t (fun t part => do
          let v ← @pairAt α (F32.ofOp op zero) len t part
          store part t v) part = (.ok p : Res (List α)) ∧
        @HalfDone α (F32.ofOp op zero) len t part p) ∧
    (part ≠ [] →
      PairTree.tree op zero part = (PairTree.bracketing part.length).value op (fun i => part.getD i zero) ∧
      (PairTree.bracketing part.length).places = List.range part.length) ∧
    ∀ (array : Nat → α) (len : UInt32), len.toNat + 1 < 2 ^ 32 →
      @Device.unsignedTree α (F32.ofOp op zero) array len = PairTree.tree op zero (Device.cells array len.toNat) := by
  refine ⟨@fixedTree_eq α (F32.ofOp op zero) part, fun more => ?_, ?_, fun hsome => ?_, fun array len hlen => ?_⟩
  · exact @treeLevels_enough α (F32.ofOp op zero) part.length part.length (Nat.le_succ _) more part
  · intro len t hlen ht
    exact @treeLevel_turns α (F32.ofOp op zero) len t part hlen ht
  · exact ⟨PairTree.tree_eq_value op zero hsome, PairTree.places_bracketing (List.length_pos_of_ne_nil hsome)⟩
  · exact @Device.unsignedTree_eq α (F32.ofOp op zero) len hlen array

end VitniTensor
