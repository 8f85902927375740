import VitniTensor.Lib.Rows
import VitniTensor.Quant.Reduce
import VitniTensor.Tensor.Basic

/-!
# Softmax along the last dimension

The maximum is subtracted first; the denominator is a canonical sum.
-/

namespace VitniTensor

open Outcome

variable {F : Type} [F32 F]

/-- The largest value, `-∞` if there is none. -/
def rowMax (row : List F) : F :=
  row.foldl (fun mx v => if F32.lt mx v then v else mx) F32.negInfinity

def softmaxRow (last : Nat) (row : List F) : Res (List F) := do
  let mx := rowMax row
  let outRow := row.map fun v => F32.expf (F32.sub v mx)
  let sum ← canonicalSum outRow last
  let inv := F32.div F32.one sum
  pure (outRow.map fun v => F32.mul v inv)

/-- The loop over the rows of `xs`. -/
def softmaxRows (xs : List F) (last rows : Nat) : Res (List F) :=
  forRange rows (fun r out => do
    let row ← slice xs (r * last) ((r + 1) * last)
    let outRow ← softmaxRow last row
    copyInto out (r * last) ((r + 1) * last) outRow) (List.replicate xs.length F32.zero)

def Tensor.softmaxLastDim (t : Tensor F) : Res (Tensor F) :=
  if t.dtype ≠ .f32 then .error (.err (.notImplemented "softmax" "F32 only"))
  else do
    let contiguous ← t.isContiguous
    if !contiguous then
      .error (.err (.notImplemented "softmax" "a contiguous layout is required"))
    else
      match t.storage with
      | .f32 xs =>
        let dims := t.shape.dims
        if dims.isEmpty then .error (.err (.invalidShape "softmax requires rank ≥ 1"))
        else do
          let last := dims.getLastD 0
          let rows ← div xs.length last
          let out ← softmaxRows xs last rows
          Tensor.fromF32 out t.shape
      | _ => .error (.err (.notImplemented "softmax" "CPU-only"))

theorem softmaxRow_ok {last : Nat} {row : List F} (hrow : row.length = last) :
    ∃ out, softmaxRow last row = .ok out ∧ out.length = last := by
  unfold softmaxRow
  dsimp only
  obtain ⟨sum, hsum⟩ := @canonicalSum_ok F _ (row.map fun v => F32.expf (F32.sub v (rowMax row))) last
    (Nat.le_of_eq (hrow.symm.trans (List.length_map _).symm))
  rw [hsum, ok_bind]
  exact ⟨_, rfl, by simp only [List.length_map, hrow]⟩

theorem softmaxRows_ok {xs : List F} {last rows : Nat} (hinside : rows * last ≤ xs.length) :
    ∃ out, softmaxRows xs last rows = .ok out ∧ out.length = xs.length := by
  unfold softmaxRows
  apply Rows.forRange_rows_ok List.length_replicate hinside
  intro row hrow
  exact softmaxRow_ok hrow

/-- Past the checks of the softmax. -/
theorem Tensor.softmaxLastDim_eq {t : Tensor F} {xs : List F} {last : Nat} (hdata : t.storage = .f32 xs)
    (hlast : t.shape.dims.getLast? = some last) :
    t.softmaxLastDim = (div xs.length last >>= fun rows => softmaxRows xs last rows >>= fun out =>
      fromF32 out t.shape) := by
  have hdtype : t.dtype = .f32 := by
    rw [← t.tagged, hdata]
    rfl
  have hranked : t.shape.dims.isEmpty = false := by
    cases hnil : t.shape.dims with
    | nil => rw [hnil] at hlast; cases hlast
    | cons d dims => rfl
  have hwidth : t.shape.dims.getLastD 0 = last := by
    rw [List.getLastD_eq_getLast?, hlast]
    rfl
  unfold softmaxLastDim
  rw [if_neg (not_not_intro hdtype), isContiguous_eq, ok_bind]
  simp only [Bool.not_true, Bool.false_eq_true, if_false, hdata, hranked, hwidth]

/-- Each row of the result is computed from the row at its place. -/
theorem Tensor.softmaxLastDim_rows {t : Tensor F} {xs : List F} {last : Nat} (hdata : t.storage = .f32 xs)
    (hlast : t.shape.dims.getLast? = some last) (hpos : 0 < last) :
    ∃ z out, t.softmaxLastDim = .ok z ∧ z.shape = t.shape ∧ z.Is t.shape.dims out ∧ out.length = xs.length ∧
      softmaxRows xs last (xs.length / last) = .ok out ∧
      ∀ r < xs.length / last, softmaxRow last (Rows.row last xs r) = .ok (Rows.row last out r) := by
  have hfilled : xs.length = t.shape.numel := by
    rw [← t.filled, hdata]
    rfl
  obtain ⟨out, hrun, hlength, hrows⟩ := @Rows.forRange_rows_spec Error F (softmaxRow last) last (xs.length / last) xs
    (List.replicate xs.length F32.zero) List.length_replicate (Nat.div_mul_le_self xs.length last)
    fun row hrow => softmaxRow_ok hrow
  have hsoftmax : softmaxRows xs last (xs.length / last) = .ok out := hrun
  obtain ⟨z, hz⟩ := Tensor.fromF32_ok (hlength.trans hfilled) t.rowMajor
  obtain ⟨hout, hshape, -, hcpu⟩ := Tensor.fromF32_eq_ok hz
  refine ⟨z, out, ?_, hshape, ⟨by rw [hshape], hcpu, hout⟩, hlength, hsoftmax, hrows⟩
  rw [softmaxLastDim_eq hdata hlast, div_of_pos hpos, ok_bind, hsoftmax, ok_bind, hz]

/-- A vector is one row. -/
theorem Tensor.Is.softmax_ok {n : Nat} {xs out : List F} {t : Tensor F} (h : t.Is [n] xs) (hn : 0 < n)
    (hxs : xs.length = n) (hrow : softmaxRow n xs = .ok out) :
    ∃ z, t.softmaxLastDim = .ok z ∧ z.Is [n] out := by
  have hlast : t.shape.dims.getLast? = some n := by
    rw [h.dims]
    rfl
  obtain ⟨z, out', hz, -, his, hlength, -, hrows⟩ := softmaxLastDim_rows h.data hlast hn
  have hfirst : ∀ ys : List F, ys.length = n → Rows.row n ys 0 = ys := by
    rintro ys rfl
    unfold Rows.row
    rw [Nat.zero_mul, List.drop_zero, List.take_length]
  have hsame := hrows 0 (Nat.div_pos (Nat.le_of_eq hxs.symm) hn)
  rw [hfirst xs hxs, hfirst out' (hlength.trans hxs), hrow] at hsame
  cases hsame
  rw [h.dims] at his
  exact ⟨z, hz, his⟩

end VitniTensor
