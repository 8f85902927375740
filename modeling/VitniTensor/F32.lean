import VitniTensor.Error

/-!
# Floating point

The `f32` operations of the engine, uninterpreted. A float literal of the source is given
by its bit pattern. Comparisons are Boolean, as they are on IEEE floats, and no law is
assumed of any operation.
-/

class F32 (F : Type) where
  ofBits : UInt32 → F
  toBits : F → UInt32
  add : F → F → F
  sub : F → F → F
  mul : F → F → F
  div : F → F → F
  neg : F → F
  lt : F → F → Bool
  le : F → F → Bool
  /-- An integer `as f32`. -/
  ofInt : Int → F
  /-- `as i32`. -/
  toI32 : F → Int
  expf : F → F
  powf : F → F → F
  cosf : F → F
  sinf : F → F
  sqrtf : F → F

/-- The floats of the machine. -/
instance : F32 Float32 where
  ofBits := Float32.ofBits
  toBits := Float32.toBits
  add := Float32.add
  sub := Float32.sub
  mul := Float32.mul
  div := Float32.div
  neg := Float32.neg
  lt a b := a < b
  le a b := a ≤ b
  ofInt := Float32.ofInt
  toI32 x := x.toInt32.toInt
  expf := Float32.exp
  powf := Float32.pow
  cosf := Float32.cos
  sinf := Float32.sin
  sqrtf := Float32.sqrt

/-- Floats that only count the additions behind them: enough to tell reductions apart. -/
structure Cost where
  adds : Nat
  deriving DecidableEq, Repr

instance : F32 Cost where
  ofBits _ := ⟨0⟩
  toBits x := UInt32.ofNat x.adds
  add x y := ⟨x.adds + y.adds + 1⟩
  sub x y := ⟨x.adds + y.adds⟩
  mul x y := ⟨x.adds + y.adds⟩
  div x y := ⟨x.adds + y.adds⟩
  neg x := x
  lt _ _ := false
  le _ _ := false
  ofInt _ := ⟨0⟩
  toI32 _ := 0
  expf x := x
  powf x y := ⟨x.adds + y.adds⟩
  cosf x := x
  sinf x := x
  sqrtf x := x

/-- Floats with the error function of GELU. -/
class ErfF32 (F : Type) extends F32 F where
  erff : F → F

instance : ErfF32 Cost where
  erff x := x

namespace F32

variable {F : Type} [F32 F]

/-- `0.0`. -/
def zero : F := ofBits 0

/-- `1.0`. -/
def one : F := ofBits 0x3F800000

/-- `f32::NEG_INFINITY`. -/
def negInfinity : F := ofBits 0xFF800000

/-- `a == b`: with a NaN neither comparison holds. -/
def eq (a b : F) : Bool :=
  le a b && le b a

end F32

namespace VitniTensor

variable {F : Type} [F32 F]

/-- `vec![0.0f32; n]`: more than `isize::MAX` bytes panic. -/
def zeroVec (n : Nat) : Res (List F) :=
  if n * 4 < 2 ^ 63 then .ok (List.replicate n F32.zero) else .error (.panic .capacityOverflow)

theorem zeroVec_of_lt {n : Nat} (h : n * 4 < 2 ^ 63) :
    (zeroVec n : Res (List F)) = .ok (List.replicate n F32.zero) :=
  if_pos h

theorem zeroVec_of_ge {n : Nat} (h : 2 ^ 63 ≤ n * 4) :
    (zeroVec n : Res (List F)) = .error (.panic .capacityOverflow) :=
  if_neg (Nat.not_lt.mpr h)

theorem zeroVec_eq_ok {n : Nat} {xs : List F} (h : zeroVec n = .ok xs) : n * 4 < 2 ^ 63 := by
  unfold zeroVec at h
  split at h
  next hfits => exact hfits
  next => cases h

/-- A vector's length is a word. -/
theorem lt_wordSize {n : Nat} (h : n * 4 < 2 ^ 63) : n < Outcome.wordSize := by
  unfold Outcome.wordSize
  omega

theorem length_zeroVec {n : Nat} {xs : List F} (h : zeroVec n = .ok xs) : xs.length = n := by
  rw [zeroVec_of_lt (zeroVec_eq_ok h)] at h
  cases h
  exact List.length_replicate

end VitniTensor
