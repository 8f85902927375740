import Mathlib.Algebra.Order.Ring.Int
import VitniTensor.F32

/-!
# Comparing floats

The binary32 values by their bits, with the comparisons that IEEE 754 defines on the values the
bits stand for. The other operations are those of the machine.
-/

namespace VitniTensor

/-- What the comparisons of floats do: a NaN compares with nothing, the others are ordered. -/
structure OrderedFloats (F : Type) [F32 F] : Prop where
  lt_iff : ∀ a b : F, F32.lt a b ↔ F32.le a b ∧ ¬F32.le b a
  trans : ∀ a b c : F, F32.le a b → F32.le b c → F32.le a c
  total : ∀ a b : F, F32.le a a → F32.le b b → F32.le a b ∨ F32.le b a

structure Binary32 where
  bits : UInt32
  deriving DecidableEq, Repr

namespace Binary32

variable (x y : Binary32)

def sign : Bool :=
  2 ^ 31 ≤ x.bits.toNat

def exponent : Nat :=
  x.bits.toNat / 2 ^ 23 % 2 ^ 8

def fraction : Nat :=
  x.bits.toNat % 2 ^ 23

def isNaN : Bool :=
  x.exponent = 255 ∧ x.fraction ≠ 0

/-- The absolute value as a multiple of `2^-149`. An infinity counts as the value that its bits
would have in the next binade, which is above all others. -/
def magnitude : Nat :=
  if x.exponent = 0 then x.fraction else (2 ^ 23 + x.fraction) * 2 ^ (x.exponent - 1)

/-- The value, with one zero. -/
def scaled : Int :=
  if x.sign then -(x.magnitude : Int) else x.magnitude

def lt : Bool :=
  ¬x.isNaN ∧ ¬y.isNaN ∧ x.scaled < y.scaled

def le : Bool :=
  ¬x.isNaN ∧ ¬y.isNaN ∧ x.scaled ≤ y.scaled

/-- An operation of the machine. -/
def lift (f : Float32 → Float32) : Binary32 :=
  ⟨(f (.ofBits x.bits)).toBits⟩

def lift₂ (f : Float32 → Float32 → Float32) : Binary32 :=
  ⟨(f (.ofBits x.bits) (.ofBits y.bits)).toBits⟩

instance : F32 Binary32 where
  ofBits := Binary32.mk
  toBits := Binary32.bits
  add x y := x.lift₂ y Float32.add
  sub x y := x.lift₂ y Float32.sub
  mul x y := x.lift₂ y Float32.mul
  div x y := x.lift₂ y Float32.div
  neg x := x.lift Float32.neg
  lt := Binary32.lt
  le := Binary32.le
  ofInt i := ⟨(Float32.ofInt i).toBits⟩
  toI32 x := (Float32.ofBits x.bits).toInt32.toInt
  expf x := x.lift Float32.exp
  powf x y := x.lift₂ y Float32.pow
  cosf x := x.lift Float32.cos
  sinf x := x.lift Float32.sin
  sqrtf x := x.lift Float32.sqrt

theorem lt_iff_scaled : F32.lt x y ↔ ¬x.isNaN ∧ ¬y.isNaN ∧ x.scaled < y.scaled :=
  decide_eq_true_iff

theorem le_iff_scaled : F32.le x y ↔ ¬x.isNaN ∧ ¬y.isNaN ∧ x.scaled ≤ y.scaled :=
  decide_eq_true_iff

/-- Equal to itself, unless it is a NaN. -/
theorem le_self_iff : F32.le x x ↔ ¬x.isNaN := by
  rw [le_iff_scaled]
  exact ⟨fun h => h.1, fun h => ⟨h, h, le_refl _⟩⟩

theorem ordered : OrderedFloats Binary32 where
  lt_iff a b := by
    rw [lt_iff_scaled, le_iff_scaled, le_iff_scaled]
    constructor
    · rintro ⟨ha, hb, hlt⟩
      exact ⟨⟨ha, hb, le_of_lt hlt⟩, fun h => absurd hlt (not_lt_of_ge h.2.2)⟩
    · rintro ⟨⟨ha, hb, -⟩, hnot⟩
      exact ⟨ha, hb, lt_of_not_ge fun h => hnot ⟨hb, ha, h⟩⟩
  trans a b c := by
    simp only [le_iff_scaled]
    rintro ⟨ha, -, hab⟩ ⟨-, hc, hbc⟩
    exact ⟨ha, hc, le_trans hab hbc⟩
  total a b := by
    simp only [le_iff_scaled]
    rintro ⟨ha, -⟩ ⟨hb, -⟩
    rcases le_total a.scaled b.scaled with h | h
    · exact .inl ⟨ha, hb, h⟩
    · exact .inr ⟨hb, ha, h⟩

/-- Both zeros are equal, a NaN is not equal to itself and the infinities are the extremes. -/
example : F32.eq (⟨0⟩ : Binary32) ⟨0x80000000⟩ ∧ ¬F32.eq (⟨0x7FC00000⟩ : Binary32) ⟨0x7FC00000⟩ ∧
    F32.lt (⟨0x7F7FFFFF⟩ : Binary32) ⟨0x7F800000⟩ ∧ F32.lt (⟨0xFF800000⟩ : Binary32) ⟨0xFF7FFFFF⟩ := by
  decide

end Binary32

/-- Numbers from `1.0` up. -/
def risingRow (n : Nat) : List Binary32 :=
  (List.range n).map fun i => ⟨UInt32.ofNat (0x3F800000 + i * 0x1000)⟩

theorem length_risingRow (n : Nat) : (risingRow n).length = n := by
  rw [risingRow, List.length_map, List.length_range]

end VitniTensor
