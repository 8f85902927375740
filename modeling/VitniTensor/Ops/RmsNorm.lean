import VitniTensor.Lib.Rows
import VitniTensor.Quant.Reduce
import VitniTensor.Tensor.Basic

/-!
# RMS normalization

`(x / sqrt(mean(x²) + eps)) * w` along the last dimension, the mean by the canonical
reduction.
-/

namespace VitniTensor

open Outcome

variable {F : Type} [F32 F]

/-- One row, normalized and scaled. -/
def rmsRow (ws : List F) (eps : F) (feat : Nat) (row : List F) : Res (List F) := do
  let sumsq ← canonicalDot row row feat
  let mean := F32.div sumsq (F32.ofInt feat)
  let scale := F32.div F32.one (F32.sqrtf (F32.add mean eps))
  pure (List.zipWith (fun v w => F32.mul (F32.mul v scale) w) row ws)

/-- The loop over the rows of `xs`. -/
def rmsRows (xs ws : List F) (eps : F) (feat rows : Nat) : Res (List F) :=
  forRange rows (fun r out => do
    let row ← slice xs (r * feat) ((r + 1) * feat)
    let outRow ← rmsRow ws eps feat row
    copyInto out (r * feat) ((r + 1) * feat) outRow) (List.replicate xs.length F32.zero)

def rmsNormSlice (x : Tensor F) (ws : List F) (eps : F) : Res (Tensor F) :=
  if x.dtype ≠ .f32 then .error (.err (.notImplemented "rms_norm" "F32 only"))
  else do
    let contiguous ← x.isContiguous
    if !contiguous then
      .error (.err (.notImplemented "rms_norm" "a contiguous layout is required"))
    else
      let dims := x.shape.dims
      if dims.isEmpty then .error (.err (.invalidShape "rms_norm requires rank ≥ 1"))
      else
        let feat := dims.getLastD 0
        if ws.length ≠ feat then
          .error (.err (.shapeMismatch "weight length == last dim of x" "weight mismatch"))
        else
          match x.storage with
          | .f32 xs => do
            let rows ← div xs.length feat
            let out ← rmsRows xs ws eps feat rows
            Tensor.fromF32 out x.shape
          | _ => .error (.err (.notImplemented "rms_norm" "CPU-only"))

theorem rmsRow_ok {ws row : List F} (eps : F) {feat : Nat} (hws : ws.length = feat)
    (hrow : row.length = feat) : ∃ out, rmsRow ws eps feat row = .ok out ∧ out.length = feat := by
  obtain ⟨sumsq, hsumsq⟩ := canonicalDot_ok (Nat.le_of_eq hrow.symm) (Nat.le_of_eq hrow.symm)
  unfold rmsRow
  rw [hsumsq, ok_bind]
  exact ⟨_, rfl, by rw [List.length_zipWith, hrow, hws, Nat.min_self]⟩

theorem rmsRows_ok {xs ws : List F} (eps : F) {feat rows : Nat} (hinside : rows * feat ≤ xs.length)
    (hws : ws.length = feat) : ∃ out, rmsRows xs ws eps feat rows = .ok out ∧ out.length = xs.length := by
  unfold rmsRows
  apply Rows.forRange_rows_ok List.length_replicate hinside
  intro row hrow
  exact rmsRow_ok eps hws hrow

/-- The weight is a tensor of one dim, the last one of `x`. -/
def Tensor.rmsNorm (x weight : Tensor F) (eps : F) : Res (Tensor F) :=
  if x.dtype ≠ .f32 ∨ weight.dtype ≠ .f32 then .error (.err (.notImplemented "rms_norm" "F32 only"))
  else do
    let left ← x.isContiguous
    let right ← weight.isContiguous
    if !left || !right then
      .error (.err (.notImplemented "rms_norm" "a contiguous layout is required"))
    else
      let dims := x.shape.dims
      if dims.isEmpty then .error (.err (.invalidShape "rms_norm requires rank ≥ 1"))
      else
        let feat := dims.getLastD 0
        if weight.shape.dims ≠ [feat] then
          .error (.err (.shapeMismatch "weight length == last dim of x" "weight mismatch"))
        else
          match weight.storage with
          | .f32 ws => rmsNormSlice x ws eps
          | _ => .error (.err (.notImplemented "rms_norm" "CPU-only"))

/-- With a weight of the right shape, the checks pass on to the slice version. -/
theorem Tensor.Is.rmsNorm_eq {n : Nat} {xs ws : List F} {x weight : Tensor F} (hx : x.Is [n] xs)
    (hw : weight.Is [n] ws) (eps : F) : x.rmsNorm weight eps = rmsNormSlice x ws eps := by
  unfold rmsNorm
  rw [if_neg (by rw [hx.dtype, hw.dtype]; simp), isContiguous_eq, isContiguous_eq, ok_bind, ok_bind]
  simp only [Bool.not_true, Bool.or_self, Bool.false_eq_true, if_false, hx.dims, List.isEmpty_cons,
    List.getLastD_cons, List.getLastD_nil, hw.dims, ne_eq, not_true_eq_false, hw.data]

end VitniTensor
