import Mathlib.Algebra.BigOperators.Group.List.Basic

/-!
# Pairwise trees

A list is combined level by level: neighbours are paired, and an odd last element moves up as
it is. For an operation that need not be associative this fixes one order of evaluation.
-/

namespace VitniTensor.PairTree

variable {α : Type} (op : α → α → α)

/-- One level. -/
def pairUp : List α → List α
  | a :: b :: rest => op a b :: pairUp rest
  | [a] => [a]
  | [] => []

/-- `n` levels. -/
def levels : (n : Nat) → List α → List α
  | 0, xs => xs
  | n + 1, xs => levels n (pairUp op xs)

/-- The value of the tree, `zero` if it has no leaves. As many levels as leaves are more than
enough. -/
def tree (zero : α) (xs : List α) : α :=
  (levels op xs.length xs).headD zero

@[simp] theorem tree_nil (zero : α) : tree op zero [] = zero := rfl

@[simp] theorem tree_singleton (zero a : α) : tree op zero [a] = a := rfl

theorem length_pairUp (xs : List α) : (pairUp op xs).length = (xs.length + 1) / 2 := by
  induction xs using pairUp.induct with
  | case1 a b rest ih =>
    rw [pairUp, List.length_cons, ih, List.length_cons, List.length_cons]
    omega
  | case2 a => simp [pairUp]
  | case3 => simp [pairUp]

/-- Cell `t` of the next level. -/
theorem getElem?_pairUp (xs : List α) (t : Nat) :
    (pairUp op xs)[t]? = match xs[2 * t]?, xs[2 * t + 1]? with
      | some a, some b => some (op a b)
      | last, _ => last := by
  induction xs using pairUp.induct generalizing t with
  | case1 a b rest ih =>
    cases t with
    | zero => rfl
    | succ t =>
      have hshift : 2 * (t + 1) = 2 * t + 1 + 1 := by omega
      rw [pairUp, List.getElem?_cons_succ, ih t, hshift]
      simp only [List.getElem?_cons_succ]
  | case2 a =>
    cases t with
    | zero => rfl
    | succ t =>
      have hshift : 2 * (t + 1) = 2 * t + 1 + 1 := by omega
      rw [hshift]
      simp [pairUp]
  | case3 => simp [pairUp]

theorem levels_of_length_le_one {xs : List α} (h : xs.length ≤ 1) (n : Nat) : levels op n xs = xs := by
  have hone : pairUp op xs = xs := by
    match xs, h with
    | [], _ => rfl
    | [a], _ => rfl
  induction n with
  | zero => rfl
  | succ n ih => rw [levels, hone, ih]

/-- Enough levels leave at most one element. -/
theorem length_levels_le_one {n : Nat} {xs : List α} (h : xs.length ≤ n + 1) :
    (levels op n xs).length ≤ 1 := by
  induction n generalizing xs with
  | zero => exact h
  | succ n ih =>
    rw [levels]
    refine ih ?_
    rw [length_pairUp]
    omega

section Map

variable {β : Type} {op' : β → β → β} {f : α → β} (hop : ∀ a b, f (op a b) = op' (f a) (f b))
include hop

theorem map_pairUp (xs : List α) : (pairUp op xs).map f = pairUp op' (xs.map f) := by
  induction xs using pairUp.induct with
  | case1 a b rest ih => rw [pairUp, List.map_cons, ih, hop, List.map_cons, List.map_cons, pairUp]
  | case2 a => rfl
  | case3 => rfl

theorem map_levels (n : Nat) (xs : List α) : (levels op n xs).map f = levels op' n (xs.map f) := by
  induction n generalizing xs with
  | zero => rfl
  | succ n ih => rw [levels, ih, map_pairUp op hop, levels]

/-- A homomorphism goes through a tree that has leaves. -/
theorem map_tree (zero : α) (zero' : β) {xs : List α} (hsome : xs ≠ []) :
    f (tree op zero xs) = tree op' zero' (xs.map f) := by
  unfold tree
  rw [List.length_map, ← map_levels op hop, List.headD_eq_head?_getD, List.headD_eq_head?_getD, List.head?_map]
  have hlevels : ∀ n (ys : List α), ys ≠ [] → levels op n ys ≠ [] := by
    intro n
    induction n with
    | zero => exact fun _ hys => hys
    | succ n ih =>
      intro ys hys
      refine ih _ fun hnil => ?_
      have hlength := length_pairUp op ys
      rw [hnil, List.length_nil] at hlength
      have hpos := List.length_pos_of_ne_nil hys
      omega
  cases hhead : (levels op xs.length xs).head? with
  | none => exact absurd (List.head?_eq_none_iff.mp hhead) (hlevels _ xs hsome)
  | some a => rfl

end Map

/-! ### Associative operations -/

section Associative

variable {e : α} (assoc : ∀ a b c, op (op a b) c = op a (op b c))
include assoc

/-- A level keeps what an associative operation makes of the list. -/
theorem foldr_pairUp (xs : List α) : (pairUp op xs).foldr op e = xs.foldr op e := by
  induction xs using pairUp.induct with
  | case1 a b rest ih => rw [pairUp, List.foldr_cons, ih, List.foldr_cons, List.foldr_cons, assoc]
  | case2 a => rfl
  | case3 => rfl

theorem foldr_levels (n : Nat) (xs : List α) : (levels op n xs).foldr op e = xs.foldr op e := by
  induction n generalizing xs with
  | zero => rfl
  | succ n ih => rw [levels, ih, foldr_pairUp op assoc]

/-- With a unit, the tree is the fold. -/
theorem tree_eq_foldr (unit : ∀ a, op a e = a) (xs : List α) : tree op e xs = xs.foldr op e := by
  have hlength := length_levels_le_one op (Nat.le_succ xs.length)
  have hfold := foldr_levels op (e := e) assoc xs.length xs
  unfold tree
  generalize levels op xs.length xs = ys at hlength hfold
  match ys, hlength with
  | [], _ => exact hfold
  | [a], _ =>
    rw [← hfold, List.foldr_cons, List.foldr_nil, unit]
    rfl

end Associative

/-- For addition, the tree is the sum. -/
theorem tree_add [AddCommMonoid α] (xs : List α) : tree (· + ·) 0 xs = xs.sum := by
  rw [tree_eq_foldr _ add_assoc add_zero, List.sum_eq_foldr]

/-- For concatenation, the tree is the concatenation. -/
theorem tree_append (xss : List (List α)) : tree (· ++ ·) [] xss = xss.flatten := by
  rw [tree_eq_foldr _ List.append_assoc List.append_nil]
  induction xss with
  | nil => rfl
  | cons xs xss ih => rw [List.foldr_cons, ih, List.flatten_cons]

/-! ### The shape of the tree -/

/-- A way to combine the elements at some places. -/
inductive Bracketing where
  | leaf (place : Nat)
  | node (left right : Bracketing)
  deriving DecidableEq, Repr

namespace Bracketing

/-- The places, from left to right. -/
def places : Bracketing → List Nat
  | leaf place => [place]
  | node left right => left.places ++ right.places

def value (v : Nat → α) : Bracketing → α
  | leaf place => v place
  | node left right => op (left.value v) (right.value v)

end Bracketing

/-- How the tree of `n` elements combines them. -/
def bracketing (n : Nat) : Bracketing :=
  tree .node (.leaf 0) ((List.range n).map .leaf)

/-- Every element is combined once, in order. -/
theorem places_bracketing {n : Nat} (hn : 0 < n) : (bracketing n).places = List.range n := by
  have hsome : (List.range n).map Bracketing.leaf ≠ [] := by
    rw [Ne, List.map_eq_nil_iff, List.range_eq_nil]
    exact Nat.ne_of_gt hn
  unfold bracketing
  have hplaces : ∀ left right : Bracketing, (left.node right).places = left.places ++ right.places := fun _ _ => rfl
  rw [map_tree Bracketing.node hplaces (.leaf 0) [] hsome, tree_append, List.map_map]
  exact List.flatMap_singleton' _

/-- The tree depends on the elements through the places of one bracketing. -/
theorem tree_eq_value (zero : α) {xs : List α} (hsome : xs ≠ []) :
    tree op zero xs = (bracketing xs.length).value op fun i => xs.getD i zero := by
  have hleaves : (List.range xs.length).map Bracketing.leaf ≠ [] := by
    rw [Ne, List.map_eq_nil_iff, List.range_eq_nil, List.length_eq_zero_iff]
    exact hsome
  have hcells : (List.range xs.length).map (fun i => xs.getD i zero) = xs := by
    apply List.ext_getElem
    · simp
    · intro i hi hi'
      simp [hi']
  have hvalue : ∀ left right : Bracketing, (left.node right).value op (fun i => xs.getD i zero) =
      op (left.value op fun i => xs.getD i zero) (right.value op fun i => xs.getD i zero) := fun _ _ => rfl
  unfold bracketing
  rw [map_tree Bracketing.node hvalue (.leaf 0) zero hleaves, List.map_map]
  exact congrArg (tree op zero) hcells.symm

end VitniTensor.PairTree
