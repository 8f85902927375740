import VitniTensor.Tensor.Basic

/-!
# Elementwise unary operations
-/

namespace VitniTensor

variable {F : Type} [F32 F]

namespace Tensor

/-- The elementwise pathway of all unary operations. -/
def mapF32 (t : Tensor F) (op : String) (f : F → F) : Res (Tensor F) :=
  if t.dtype ≠ .f32 then .error (.err (.notImplemented op "F32 only"))
  else do
    let contiguous ← t.isContiguous
    if !contiguous then .error (.err (.notImplemented op "a contiguous layout is required"))
    else
      match t.storage with
      | .f32 xs => fromF32 (xs.map f) t.shape
      | _ => .error (.err (.notImplemented op "CPU-only"))

omit [F32 F] in
theorem mapF32_shape {t z : Tensor F} {op : String} {f : F → F} (h : t.mapF32 op f = .ok z) : z.shape = t.shape := by
  unfold mapF32 at h
  split at h
  next => cases h
  next =>
    rw [isContiguous_eq, Outcome.ok_bind] at h
    cases hstorage : t.storage with
    | f32 xs =>
      rw [hstorage] at h
      exact fromF32_shape h
    | _ =>
      rw [hstorage] at h
      cases h

def silu (t : Tensor F) : Res (Tensor F) :=
  t.mapF32 "silu" fun x => F32.div x (F32.add F32.one (F32.expf (F32.neg x)))

/-- `silu` of one number. -/
abbrev siluOf (x : F) : F :=
  F32.div x (F32.add F32.one (F32.expf (F32.neg x)))

omit [F32 F] in
theorem Is.mapF32_ok {dims : List Nat} {xs : List F} {t : Tensor F} (h : t.Is dims xs) (op : String) (f : F → F) :
    ∃ z, t.mapF32 op f = .ok z ∧ z.Is dims (xs.map f) := by
  obtain ⟨z, hz, his⟩ := h.fromF32_ok (List.length_map f)
  refine ⟨z, ?_, his⟩
  unfold mapF32
  rw [if_neg (not_not_intro h.dtype), isContiguous_eq, Outcome.ok_bind, h.data]
  exact hz

theorem Is.silu_ok {dims : List Nat} {xs : List F} {t : Tensor F} (h : t.Is dims xs) :
    ∃ z, t.silu = .ok z ∧ z.Is dims (xs.map siluOf) :=
  h.mapF32_ok "silu" siluOf

section Gelu

variable {F : Type} [ErfF32 F]

/-- `0.5 * x * (1.0 + erff(x * SQRT_1_2))` -/
def geluOf (x : F) : F :=
  F32.mul (F32.mul (F32.ofBits 0x3F000000) x) (F32.add F32.one (ErfF32.erff (F32.mul x (F32.ofBits 0x3F3504F3))))

def gelu (t : Tensor F) : Res (Tensor F) :=
  t.mapF32 "gelu" geluOf

end Gelu

end Tensor

end VitniTensor
