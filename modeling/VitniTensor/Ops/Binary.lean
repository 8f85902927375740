import VitniTensor.Tensor.Basic

/-!
# Elementwise binary operations

No broadcasting: shapes must match.
-/

namespace VitniTensor

variable {F : Type} [F32 F]

namespace Tensor

def checkCompatible (op : String) (lhs rhs : Tensor F) : Res Unit :=
  if lhs.device ≠ rhs.device then .error (.err (.deviceMismatch op))
  else if lhs.dtype ≠ rhs.dtype then
    .error (.err (.dtypeMismatch lhs.dtype.asStr rhs.dtype.asStr))
  else if lhs.shape.dims ≠ rhs.shape.dims then
    .error (.err (.shapeMismatch "matching shape" "different shape"))
  else .ok ()

/-- The elementwise pathway of all binary operations. -/
def applyF32 (lhs rhs : Tensor F) (f : F → F → F) : Res (Tensor F) :=
  if lhs.dtype ≠ .f32 then .error (.err (.notImplemented "binary" "F32 only"))
  else do
    let left ← lhs.isContiguous
    let right ← rhs.isContiguous
    if !left || !right then
      .error (.err (.notImplemented "binary" "a contiguous layout is required"))
    else
      match lhs.storage, rhs.storage with
      | .f32 l, .f32 r => fromF32 (List.zipWith f l r) lhs.shape
      | _, _ => .error (.err (.notImplemented "binary" "CPU-only"))

def add (lhs rhs : Tensor F) : Res (Tensor F) := do
  checkCompatible "add" lhs rhs
  applyF32 lhs rhs F32.add

def mul (lhs rhs : Tensor F) : Res (Tensor F) := do
  checkCompatible "mul" lhs rhs
  applyF32 lhs rhs F32.mul

theorem mul_shape {lhs rhs z : Tensor F} (h : lhs.mul rhs = .ok z) : z.shape = lhs.shape := by
  obtain ⟨-, -, h⟩ := Outcome.bind_eq_ok.mp h
  unfold applyF32 at h
  split at h
  next => cases h
  next =>
    rw [isContiguous_eq, isContiguous_eq, Outcome.ok_bind, Outcome.ok_bind] at h
    cases hl : lhs.storage with
    | f32 l =>
      cases hr : rhs.storage with
      | f32 r =>
        rw [hl, hr] at h
        exact fromF32_shape h
      | _ =>
        rw [hl, hr] at h
        cases h
    | _ =>
      rw [hl] at h
      cases h

section Known

variable {dims : List Nat} {xs ys : List F} {x y : Tensor F}

omit [F32 F] in
theorem Is.checkCompatible_ok (op : String) (hx : x.Is dims xs) (hy : y.Is dims ys) :
    checkCompatible op x y = .ok () := by
  unfold checkCompatible
  rw [if_neg (not_not_intro (hx.cpu.trans hy.cpu.symm)), hx.dtype, hy.dtype,
    if_neg (not_not_intro rfl), hx.dims, hy.dims, if_neg (not_not_intro rfl)]

omit [F32 F] in
theorem Is.applyF32_ok (hx : x.Is dims xs) (hy : y.Is dims ys) (hlength : ys.length = xs.length)
    (f : F → F → F) : ∃ z, applyF32 x y f = .ok z ∧ z.Is dims (List.zipWith f xs ys) := by
  obtain ⟨z, hz, his⟩ := @Is.fromF32_ok F dims xs (List.zipWith f xs ys) x hx
    (by rw [List.length_zipWith, hlength, Nat.min_self])
  refine ⟨z, ?_, his⟩
  unfold applyF32
  rw [if_neg (not_not_intro hx.dtype), isContiguous_eq, isContiguous_eq, Outcome.ok_bind,
    Outcome.ok_bind, hx.data, hy.data]
  exact hz

theorem Is.add_ok (hx : x.Is dims xs) (hy : y.Is dims ys) (hlength : ys.length = xs.length) :
    ∃ z, x.add y = .ok z ∧ z.Is dims (List.zipWith F32.add xs ys) := by
  obtain ⟨z, hz, his⟩ := hx.applyF32_ok hy hlength F32.add
  refine ⟨z, ?_, his⟩
  unfold add
  rw [hx.checkCompatible_ok "add" hy, Outcome.ok_bind, hz]

theorem Is.mul_ok (hx : x.Is dims xs) (hy : y.Is dims ys) (hlength : ys.length = xs.length) :
    ∃ z, x.mul y = .ok z ∧ z.Is dims (List.zipWith F32.mul xs ys) := by
  obtain ⟨z, hz, his⟩ := hx.applyF32_ok hy hlength F32.mul
  refine ⟨z, ?_, his⟩
  unfold mul
  rw [hx.checkCompatible_ok "mul" hy, Outcome.ok_bind, hz]

end Known

end Tensor

end VitniTensor
