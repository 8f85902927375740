import Mathlib.Algebra.BigOperators.Group.List.Basic
import Mathlib.Data.List.Forall2
import Mathlib.Data.Set.Function
import Mathlib.Order.Interval.Set.Defs
import Mathlib.Algebra.GroupWithZero.Nat

/-!
# Mixed radix

Numbers written in digits of several radices, the most significant digit first. The weight of a
digit is the product of the radices after its own, and the digits below their radices stand for
the numbers below the product of all radices, each for one.
-/

namespace VitniTensor.MixedRadix

/-- The weights of the digits: each is the product of the radices after it. -/
def weights : List Nat → List Nat
  | [] => []
  | _ :: radices => radices.prod :: weights radices

/-- Each digit is below its radix. -/
def InRange (radices digits : List Nat) : Prop :=
  List.Forall₂ (· < ·) digits radices

/-- The number that digits stand for, whatever their weights are. -/
def value (ws digits : List Nat) : Nat :=
  (List.zipWith (· * ·) digits ws).sum

def digitsOf : List Nat → Nat → List Nat
  | [], _ => []
  | _ :: radices, n => n / radices.prod :: digitsOf radices (n % radices.prod)

@[simp] theorem value_nil (ws : List Nat) : value ws [] = 0 := rfl

@[simp] theorem value_cons (w d : Nat) (ws ds : List Nat) : value (w :: ws) (d :: ds) = d * w + value ws ds :=
  List.sum_cons

@[simp] theorem length_weights (radices : List Nat) : (weights radices).length = radices.length := by
  induction radices with
  | nil => rfl
  | cons r radices ih => exact congrArg (· + 1) ih

theorem InRange.value_lt {radices digits : List Nat} (h : InRange radices digits) :
    value (weights radices) digits < radices.prod := by
  induction h with
  | nil => exact Nat.one_pos
  | @cons d r ds radices hlt _ ih =>
    -- the lower digits stay below one unit of the first digit
    calc value (weights (r :: radices)) (d :: ds)
        = d * radices.prod + value (weights radices) ds := value_cons ..
      _ < d * radices.prod + radices.prod := Nat.add_lt_add_left ih _
      _ = (d + 1) * radices.prod := (Nat.succ_mul d _).symm
      _ ≤ r * radices.prod := Nat.mul_le_mul_right _ hlt
      _ = (r :: radices).prod := List.prod_cons.symm

theorem digitsOf_value {radices digits : List Nat} (h : InRange radices digits) :
    digitsOf radices (value (weights radices) digits) = digits := by
  induction h with
  | nil => rfl
  | @cons d r ds radices hlt hrest ih =>
    have hlow := InRange.value_lt hrest
    have hpos : 0 < radices.prod := Nat.zero_lt_of_lt hlow
    have hfirst : (d * radices.prod + value (weights radices) ds) / radices.prod = d := by
      rw [Nat.mul_comm, Nat.mul_add_div hpos, Nat.div_eq_of_lt hlow, Nat.add_zero]
    have hothers : (d * radices.prod + value (weights radices) ds) % radices.prod = value (weights radices) ds := by
      rw [Nat.mul_comm, Nat.mul_add_mod, Nat.mod_eq_of_lt hlow]
    simp only [weights, value_cons, digitsOf, hfirst, hothers, ih]

theorem inRange_digitsOf {radices : List Nat} {n : Nat} (hn : n < radices.prod) :
    InRange radices (digitsOf radices n) := by
  induction radices generalizing n with
  | nil => exact .nil
  | cons r radices ih =>
    rw [List.prod_cons] at hn
    have hpos : 0 < radices.prod := Nat.pos_of_mul_pos_left (Nat.zero_lt_of_lt hn)
    exact .cons ((Nat.div_lt_iff_lt_mul hpos).mpr hn) (ih (Nat.mod_lt n hpos))

theorem value_digitsOf {radices : List Nat} {n : Nat} (hn : n < radices.prod) :
    value (weights radices) (digitsOf radices n) = n := by
  induction radices generalizing n with
  | nil => exact (Nat.lt_one_iff.mp hn).symm
  | cons r radices ih =>
    rw [List.prod_cons] at hn
    have hpos : 0 < radices.prod := Nat.pos_of_mul_pos_left (Nat.zero_lt_of_lt hn)
    simp only [weights, value_cons, digitsOf, ih (Nat.mod_lt n hpos)]
    exact Nat.div_add_mod' n radices.prod

/-- The digits in range stand for the numbers below the product, each for one. -/
theorem bijOn_value (radices : List Nat) :
    Set.BijOn (value (weights radices)) {digits | InRange radices digits} (Set.Iio radices.prod) := by
  have hinverse : Set.InvOn (digitsOf radices) (value (weights radices)) {digits | InRange radices digits}
      (Set.Iio radices.prod) := ⟨fun _ h => digitsOf_value h, fun _ hn => value_digitsOf hn⟩
  apply hinverse.bijOn
  · exact fun _ h => h.value_lt
  · exact fun _ hn => inRange_digitsOf hn

end VitniTensor.MixedRadix
