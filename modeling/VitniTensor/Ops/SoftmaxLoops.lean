import VitniTensor.Model.ForwardQuantized
import VitniTensor.Ops.Softmax

/-!
# The two softmaxes

The step overwrites the scores of a head in their slice; the op writes the rows of a tensor to a
second buffer. Here both are written out cell by cell, with the denominator read back from the
buffer, and a row comes to the same in both.
-/

namespace VitniTensor

open Outcome Fill Rows

variable {F : Type} [F32 F]

/-! ### The loops, cell by cell -/

def softmaxInplaceCells (x : List F) : Res (List F) := do
  let max := maxOf x
  let x ← overwrite (fun v => F32.expf (F32.sub v max)) 0 x.length x
  let sum ← canonicalSum x x.length
  let inv := F32.div F32.one sum
  overwrite (fun v => F32.mul v inv) 0 x.length x

/-- One row, with `out_row = &mut out[r * last..(r + 1) * last]`. -/
def softmaxRowCells (xs : List F) (last r : Nat) (out : List F) : Res (List F) := do
  let row ← slice xs (r * last) ((r + 1) * last)
  let mx := rowMax row
  let _ ← slice out (r * last) ((r + 1) * last)
  let out ← mapInto (fun v => F32.expf (F32.sub v mx)) row (r * last) out
  let outRow ← slice out (r * last) ((r + 1) * last)
  let sum ← canonicalSum outRow last
  let inv := F32.div F32.one sum
  overwrite (fun v => F32.mul v inv) (r * last) last out

def softmaxRowsCells (xs : List F) (last rows : Nat) : Res (List F) :=
  forRange rows (softmaxRowCells xs last) (List.replicate xs.length F32.zero)

theorem softmaxInplaceCells_eq (x : List F) : softmaxInplaceCells x = softmaxInplace x := by
  unfold softmaxInplaceCells softmaxInplace
  dsimp only
  rw [overwrite_all, ok_bind]
  cases hsum : canonicalSum (x.map fun v => F32.expf (F32.sub v (maxOf x)))
      (x.map fun v => F32.expf (F32.sub v (maxOf x))).length with
  | error stop => rfl
  | ok sum =>
    rw [ok_bind, ok_bind, overwrite_all]
    rfl

/-- A row that is written cell by cell is the row that is copied in. -/
theorem softmaxRowCells_eq {xs out : List F} {last rows r : Nat} (hr : r < rows) (hxs : rows * last ≤ xs.length)
    (hout : out.length = xs.length) :
    softmaxRowCells xs last r out = (do
      let row ← slice xs (r * last) ((r + 1) * last)
      let outRow ← softmaxRow last row
      copyInto out (r * last) ((r + 1) * last) outRow) := by
  obtain ⟨row, hrow, hwidth⟩ := @slice_row Error F xs last rows r hr hxs
  have hend : (r + 1) * last ≤ out.length := by
    rw [hout]
    exact Nat.le_trans (Nat.mul_le_mul_right last hr) hxs
  have hspan : (r + 1) * last = r * last + last := Nat.succ_mul r last
  -- the buffer is what lies before the row, the row and what lies behind it
  obtain ⟨front, mid, back, rfl, hfront, hmid⟩ :
      ∃ front mid back : List F, out = front ++ mid ++ back ∧ front.length = r * last ∧ mid.length = last :=
    ⟨out.take (r * last), (out.drop (r * last)).take last, out.drop ((r + 1) * last), by
      rw [hspan, ← List.drop_drop, List.append_assoc, List.take_append_drop, List.take_append_drop],
      by rw [List.length_take]; omega, by rw [List.length_take, List.length_drop]; omega⟩
  have hslice : ∀ ys : List F, ys.length = last →
      (slice (front ++ ys ++ back) (r * last) ((r + 1) * last) : Res (List F)) = .ok ys := by
    intro ys hys
    rw [slice_of_le (by omega) (by simp only [List.length_append] at hend ⊢; omega), ← hfront, List.append_assoc,
      List.drop_left, hspan, hfront, Nat.add_sub_cancel_left, ← hys, List.take_left]
  have hcopy : ∀ ys : List F, ys.length = last →
      (copyInto (front ++ mid ++ back) (r * last) ((r + 1) * last) ys : Res (List F)) = .ok (front ++ ys ++ back) := by
    intro ys hys
    have hbefore : (front ++ mid ++ back).take (r * last) = front := by
      rw [← hfront, List.append_assoc, List.take_left]
    have hbehind : (front ++ mid ++ back).drop ((r + 1) * last) = back :=
      List.drop_left' (by rw [List.length_append, hfront, hmid, hspan])
    rw [copyInto_of_le (by omega) hend (by omega), hbefore, hbehind]
  unfold softmaxRowCells softmaxRow
  dsimp only
  have hexp : (row.map fun v => F32.expf (F32.sub v (rowMax row))).length = last :=
    (List.length_map _).trans hwidth
  have hwrite := @mapInto_append Error F F (fun v => F32.expf (F32.sub v (rowMax row))) row front mid back
    (hmid.trans hwidth.symm)
  rw [hfront] at hwrite
  rw [hrow, ok_bind, ok_bind, hslice mid hmid, ok_bind, hwrite, ok_bind, hslice _ hexp, ok_bind]
  cases hsum : canonicalSum (row.map fun v => F32.expf (F32.sub v (rowMax row))) last with
  | error stop => rfl
  | ok sum =>
    have hscale := @overwrite_append Error F (fun v => F32.mul v (F32.div F32.one sum)) front
      (row.map fun v => F32.expf (F32.sub v (rowMax row))) back
    rw [hfront, hexp] at hscale
    rw [ok_bind, ok_bind, hscale]
    exact (hcopy _ ((List.length_map _).trans hexp)).symm

theorem softmaxRowsCells_eq {xs : List F} {last rows : Nat} (hxs : rows * last ≤ xs.length) :
    softmaxRowsCells xs last rows = softmaxRows xs last rows := by
  apply forFrom_congr (fun out => out.length = xs.length) List.length_replicate
  · intro r out _ hr hout
    exact softmaxRowCells_eq (by omega) hxs hout
  · intro r out out' hout hstep
    -- no write changes the length of the buffer
    obtain ⟨row, -, hstep⟩ := bind_eq_ok.mp hstep
    obtain ⟨_, -, hstep⟩ := bind_eq_ok.mp hstep
    obtain ⟨filled, hfill, hstep⟩ := bind_eq_ok.mp hstep
    obtain ⟨outRow, -, hstep⟩ := bind_eq_ok.mp hstep
    obtain ⟨sum, -, hstep⟩ := bind_eq_ok.mp hstep
    exact (length_overwrite hstep).trans ((length_mapInto hfill).trans hout)

/-! ### One function -/

/-- The slice is one row. -/
theorem softmaxInplace_eq_row (x : List F) : softmaxInplace x = softmaxRow x.length x := by
  unfold softmaxInplace
  dsimp only
  rw [List.length_map]
  rfl

/-- The slice of a head and the row of a tensor come out the same, whatever rows lie around it. -/
theorem softmax_agrees {x : List F} (hx : 1 ≤ x.length) :
    ∃ y, softmaxInplace x = .ok y ∧ softmaxInplaceCells x = .ok y ∧ y.length = x.length ∧
      ∀ (t : Tensor F) (xs : List F), t.storage = .f32 xs → t.shape.dims.getLast? = some x.length →
        ∃ z out, t.softmaxLastDim = .ok z ∧ z.shape = t.shape ∧ z.storage = .f32 out ∧ out.length = xs.length ∧
          softmaxRowsCells xs x.length (xs.length / x.length) = .ok out ∧
          ∀ r < xs.length / x.length, row x.length xs r = x → row x.length out r = y := by
  obtain ⟨y, hy, hlength⟩ := softmaxRow_ok (rfl : x.length = x.length)
  have hinplace : softmaxInplace x = .ok y := (softmaxInplace_eq_row x).trans hy
  refine ⟨y, hinplace, (softmaxInplaceCells_eq x).trans hinplace, hlength, ?_⟩
  intro t xs hdata hdims
  obtain ⟨z, out, hz, hshape, his, hsame, hrun, hrows⟩ := Tensor.softmaxLastDim_rows hdata hdims hx
  have hcells := (softmaxRowsCells_eq (Nat.div_mul_le_self xs.length x.length)).trans hrun
  refine ⟨z, out, hz, hshape, his.data, hsame, hcells, ?_⟩
  intro r hr hrow
  have hat := hrows r hr
  rw [hrow, hy] at hat
  exact (Except.ok.inj hat).symm

/-- A row of `-∞`, on floats that count what is added. -/
theorem softmax_agrees_infinite :
    ∃ y, softmaxInplace [F32.negInfinity, (F32.negInfinity : Cost)] = .ok y ∧
      softmaxInplaceCells [F32.negInfinity, (F32.negInfinity : Cost)] = .ok y ∧ y.length = 2 ∧
      ∀ (t : Tensor Cost) (xs : List Cost), t.storage = .f32 xs → t.shape.dims.getLast? = some 2 →
        ∃ z out, t.softmaxLastDim = .ok z ∧ z.shape = t.shape ∧ z.storage = .f32 out ∧ out.length = xs.length ∧
          softmaxRowsCells xs 2 (xs.length / 2) = .ok out ∧
          ∀ r < xs.length / 2, row 2 xs r = [F32.negInfinity, F32.negInfinity] → row 2 out r = y :=
  softmax_agrees (x := [F32.negInfinity, F32.negInfinity]) (by decide)

end VitniTensor
