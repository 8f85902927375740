import VitniTensor.Lib.Outcome

/-!
# Rows of a flat matrix

A list of `n * w` cells read as `n` rows of width `w`: row `r` starts at `r * w`. An access
at an offset below `w` in a row is an access to that row alone.
-/

namespace VitniTensor.Rows

open Outcome

variable {ε α : Type}

def row (w : Nat) (xs : List α) (r : Nat) : List α :=
  (xs.drop (r * w)).take w

/-- Row `r` replaced. -/
def setRow (w : Nat) (r : Nat) (ys xs : List α) : List α :=
  xs.take (r * w) ++ ys ++ xs.drop (r * w + w)

section Bounds

variable {w n r : Nat} {xs ys : List α}

theorem row_end_le (hr : r < n) (hxs : xs.length = n * w) : r * w + w ≤ xs.length := by
  rw [hxs, ← Nat.succ_mul]
  exact Nat.mul_le_mul_right w hr

theorem length_row (hr : r < n) (hxs : xs.length = n * w) : (row w xs r).length = w := by
  have hend := row_end_le hr hxs
  unfold row
  rw [List.length_take, List.length_drop]
  omega

theorem length_setRow (hr : r < n) (hxs : xs.length = n * w) (hys : ys.length = w) :
    (setRow w r ys xs).length = xs.length := by
  have hend := row_end_le hr hxs
  unfold setRow
  rw [List.length_append, List.length_append, List.length_take, List.length_drop]
  omega

theorem row_eq_nil (hr : n ≤ r) (hxs : xs.length = n * w) : row w xs r = [] := by
  have hend := Nat.mul_le_mul_right w hr
  unfold row
  rw [List.drop_eq_nil_of_le (by omega), List.take_nil]

theorem getElem?_row (i : Nat) : (row w xs r)[i]? = if i < w then xs[r * w + i]? else none := by
  unfold row
  rw [List.getElem?_take, List.getElem?_drop]

theorem getElem?_setRow (hr : r < n) (hxs : xs.length = n * w) (hys : ys.length = w) (j : Nat) :
    (setRow w r ys xs)[j]? = if r * w ≤ j ∧ j < r * w + w then ys[j - r * w]? else xs[j]? := by
  have hend := row_end_le hr hxs
  have htake : (xs.take (r * w)).length = r * w := by
    rw [List.length_take]
    omega
  unfold setRow
  rw [List.append_assoc, List.getElem?_append, htake]
  by_cases hlow : j < r * w
  · have hout : ¬(r * w ≤ j ∧ j < r * w + w) := by omega
    rw [if_pos hlow, if_neg hout, List.getElem?_take_of_lt hlow]
  · rw [if_neg hlow, List.getElem?_append, hys]
    by_cases hin : j - r * w < w
    · have hboth : r * w ≤ j ∧ j < r * w + w := by omega
      rw [if_pos hin, if_pos hboth]
    · have hout : ¬(r * w ≤ j ∧ j < r * w + w) := by omega
      have hj : r * w + w + (j - r * w - w) = j := by omega
      rw [if_neg hin, if_neg hout, List.getElem?_drop, hj]

end Bounds

/-- Two different rows do not overlap. -/
theorem rows_disjoint {w r r' i : Nat} (hi : i < w) (hne : r' ≠ r) :
    ¬(r * w ≤ r' * w + i ∧ r' * w + i < r * w + w) := by
  rintro ⟨hlow, hhigh⟩
  rcases Nat.lt_or_gt_of_ne hne with hlt | hgt
  · have := Nat.mul_le_mul_right w hlt
    rw [Nat.succ_mul] at this
    omega
  · have := Nat.mul_le_mul_right w hgt
    rw [Nat.succ_mul] at this
    omega

section Update

variable {w n r : Nat} {xs ys : List α}

theorem row_setRow (hr : r < n) (hxs : xs.length = n * w) (hys : ys.length = w) :
    row w (setRow w r ys xs) r = ys := by
  refine List.ext_getElem? fun i => ?_
  rw [getElem?_row]
  by_cases hi : i < w
  · have hin : r * w ≤ r * w + i ∧ r * w + i < r * w + w := by omega
    rw [if_pos hi, getElem?_setRow hr hxs hys, if_pos hin, Nat.add_sub_cancel_left]
  · rw [if_neg hi, List.getElem?_eq_none (by omega)]

theorem row_setRow_ne (hr : r < n) (hxs : xs.length = n * w) (hys : ys.length = w) {r' : Nat}
    (hne : r' ≠ r) : row w (setRow w r ys xs) r' = row w xs r' := by
  refine List.ext_getElem? fun i => ?_
  rw [getElem?_row, getElem?_row]
  by_cases hi : i < w
  · rw [if_pos hi, if_pos hi, getElem?_setRow hr hxs hys, if_neg (rows_disjoint hi hne)]
  · rw [if_neg hi, if_neg hi]

@[simp] theorem setRow_row (hr : r < n) (hxs : xs.length = n * w) : setRow w r (row w xs r) xs = xs := by
  refine List.ext_getElem? fun j => ?_
  rw [getElem?_setRow hr hxs (length_row hr hxs)]
  split
  next hin =>
    have hj : r * w + (j - r * w) = j := by omega
    rw [getElem?_row, if_pos (by omega), hj]
  next => rfl

theorem setRow_setRow (hr : r < n) (hxs : xs.length = n * w) (hys : ys.length = w) {zs : List α}
    (hzs : zs.length = w) : setRow w r zs (setRow w r ys xs) = setRow w r zs xs := by
  have hlength : (setRow w r ys xs).length = n * w := by rw [length_setRow hr hxs hys, hxs]
  refine List.ext_getElem? fun j => ?_
  rw [getElem?_setRow hr hlength hzs, getElem?_setRow hr hxs hzs]
  split
  next => rfl
  next hout => rw [getElem?_setRow hr hxs hys, if_neg hout]

end Update

/-! ### Access to a row through the flat matrix -/

section Access

variable {w n r : Nat} {xs : List α}

theorem index_inRow {i : Nat} (hi : i < w) :
    (index xs (r * w + i) : Outcome ε α) = index (row w xs r) i := by
  unfold index
  rw [getElem?_row, if_pos hi]

theorem slice_inRow {lo hi : Nat} (hr : r < n) (hxs : xs.length = n * w) (hle : lo ≤ hi) (hhi : hi ≤ w) :
    (slice xs (r * w + lo) (r * w + hi) : Outcome ε (List α)) = slice (row w xs r) lo hi := by
  have hend := row_end_le hr hxs
  have hrow := length_row hr hxs
  rw [slice_of_le (by omega) (by omega), slice_of_le hle (by omega)]
  have hwidth : r * w + hi - (r * w + lo) = hi - lo := by omega
  have hshort : min (hi - lo) (w - lo) = hi - lo := by omega
  unfold row
  rw [hwidth, List.drop_take, List.take_take, List.drop_drop, hshort]

theorem store_inRow {i : Nat} {x : α} (hr : r < n) (hxs : xs.length = n * w) (hi : i < w) :
    (store xs (r * w + i) x : Outcome ε (List α)) = .ok (setRow w r ((row w xs r).set i x) xs) := by
  have hend := row_end_le hr hxs
  have hrow : ((row w xs r).set i x).length = w := by rw [List.length_set, length_row hr hxs]
  rw [store_of_lt (by omega)]
  congr 1
  refine List.ext_getElem? fun j => ?_
  rw [getElem?_setRow hr hxs hrow, List.getElem?_set]
  split
  next heq =>
    subst heq
    have hin : r * w ≤ r * w + i ∧ r * w + i < r * w + w := by omega
    have hlen : i < (row w xs r).length := by rw [length_row hr hxs]; exact hi
    rw [if_pos (by omega), if_pos hin, Nat.add_sub_cancel_left, List.getElem?_set_self hlen]
  next hne =>
    split
    next hin =>
      have hj : r * w + (j - r * w) = j := by omega
      rw [List.getElem?_set_ne (by omega), getElem?_row, if_pos (by omega), hj]
    next => rfl

/-- Copying a whole row in. -/
theorem copyInto_setRow {ys : List α} (hr : r < n) (hxs : xs.length = n * w) (hys : ys.length = w) :
    (copyInto xs (r * w) (r * w + w) ys : Outcome ε (List α)) = .ok (setRow w r ys xs) :=
  copyInto_of_le (by omega) (row_end_le hr hxs) (by omega)

end Access

/-- A whole row is there. -/
theorem slice_eq_row (hr : r < n) (hxs : xs.length = n * w) :
    (slice xs (r * w) (r * w + w) : Outcome ε (List α)) = .ok (row w xs r) := by
  rw [slice_of_le (by omega) (row_end_le hr hxs), Nat.add_sub_cancel_left]
  rfl

/-- The rows before row `r` lie in front of it. -/
theorem row_append_of_lt {front rest : List α} {w r s : Nat} (hfront : front.length = r * w) (hs : s < r) :
    row w (front ++ rest) s = row w front s := by
  have hend : s * w + w ≤ r * w := by
    rw [← Nat.succ_mul]
    exact Nat.mul_le_mul_right w hs
  apply List.ext_getElem?
  intro i
  rw [getElem?_row, getElem?_row]
  split
  next hi => exact List.getElem?_append_left (by omega)
  next => rfl

theorem row_append_self {front mid back : List α} {w r : Nat} (hfront : front.length = r * w) (hmid : mid.length = w) :
    row w (front ++ mid ++ back) r = mid := by
  unfold row
  rw [← hfront, List.append_assoc, List.drop_left, ← hmid, List.take_left]

/-- A loop over rows makes each row out of the row at its place. -/
theorem forRange_rows_spec {f : List α → Outcome ε (List α)} {width rows : Nat} {xs init : List α}
    (hinit : init.length = xs.length) (hinside : rows * width ≤ xs.length)
    (hf : ∀ row : List α, row.length = width → ∃ out, f row = .ok out ∧ out.length = width) :
    ∃ out, forRange rows (fun r out => do
      let row ← slice xs (r * width) ((r + 1) * width)
      let outRow ← f row
      copyInto out (r * width) ((r + 1) * width) outRow) init = .ok out ∧ out.length = xs.length ∧
      ∀ r < rows, f (row width xs r) = .ok (row width out r) := by
  have hstart : init.length = xs.length ∧ ∀ r < 0, f (row width xs r) = .ok (row width init r) :=
    ⟨hinit, fun r hr => absurd hr (Nat.not_lt_zero r)⟩
  have hrun := @forFrom_ok ε (List α) (fun k out => out.length = xs.length ∧
    ∀ r < k, f (row width xs r) = .ok (row width out r)) 0 rows (fun r out => do
      let row ← slice xs (r * width) ((r + 1) * width)
      let outRow ← f row
      copyInto out (r * width) ((r + 1) * width) outRow) init hstart
  rw [Nat.zero_add] at hrun
  apply hrun
  rintro r out - hr ⟨hout, hrows⟩
  have hend : (r + 1) * width ≤ xs.length := Nat.le_trans (Nat.mul_le_mul_right width hr) hinside
  have hspan : (r + 1) * width = r * width + width := Nat.succ_mul r width
  have hslice : (slice xs (r * width) ((r + 1) * width) : Outcome ε (List α)) = .ok (row width xs r) := by
    rw [slice_of_le (by omega) hend, hspan, Nat.add_sub_cancel_left]
    rfl
  have hwidth : (row width xs r).length = width := by
    unfold row
    rw [List.length_take, List.length_drop]
    omega
  obtain ⟨outRow, hrow, hlength⟩ := hf _ hwidth
  have hfront : (out.take (r * width)).length = r * width := by
    rw [List.length_take]
    omega
  refine ⟨out.take (r * width) ++ outRow ++ out.drop ((r + 1) * width), ?_, ?_, ?_⟩
  · rw [hslice, ok_bind, hrow, ok_bind, copyInto_of_le (by omega) (by omega) (by omega)]
  · simp only [List.length_append, List.length_drop, hfront]
    omega
  · intro s hs
    rcases Nat.lt_succ_iff_lt_or_eq.mp hs with hbefore | rfl
    · have hkept : row width (out.take (r * width)) s = row width out s := by
        have hsplit := @row_append_of_lt α (out.take (r * width)) (out.drop (r * width)) width r s hfront hbefore
        rw [List.take_append_drop] at hsplit
        exact hsplit.symm
      rw [List.append_assoc, row_append_of_lt hfront hbefore, hkept]
      exact hrows s hbefore
    · rw [row_append_self hfront hlength]
      exact hrow

theorem forRange_rows_ok {f : List α → Outcome ε (List α)} {width rows : Nat} {xs init : List α}
    (hinit : init.length = xs.length) (hinside : rows * width ≤ xs.length)
    (hf : ∀ row : List α, row.length = width → ∃ out, f row = .ok out ∧ out.length = width) :
    ∃ out, forRange rows (fun r out => do
      let row ← slice xs (r * width) ((r + 1) * width)
      let outRow ← f row
      copyInto out (r * width) ((r + 1) * width) outRow) init = .ok out ∧ out.length = xs.length := by
  obtain ⟨out, hrun, hlength, -⟩ := forRange_rows_spec hinit hinside hf
  exact ⟨out, hrun, hlength⟩

/-- A buffer that is one row. -/
theorem row_whole (hxs : xs.length = w) : row w xs 0 = xs := by
  unfold row
  rw [Nat.zero_mul, List.drop_zero, ← hxs, List.take_length]

/-- The loop over the rows of a buffer that is one row. -/
theorem forRange_one_row {f : List α → Outcome ε (List α)} {width : Nat} {xs init out : List α}
    (hxs : xs.length = width) (hinit : init.length = xs.length) (hrow : f xs = .ok out) (hout : out.length = width) :
    forRange 1 (fun r out => do
      let row ← slice xs (r * width) ((r + 1) * width)
      let outRow ← f row
      copyInto out (r * width) ((r + 1) * width) outRow) init = .ok out := by
  have hslice : (slice xs (0 * width) ((0 + 1) * width) : Outcome ε (List α)) = .ok xs := by
    rw [slice_of_le (by omega) (by omega), Nat.zero_mul, List.drop_zero, Nat.zero_add, Nat.one_mul, Nat.sub_zero,
      ← hxs, List.take_length]
  have hcopy : (copyInto init (0 * width) ((0 + 1) * width) out : Outcome ε (List α)) = .ok out := by
    rw [copyInto_of_le (by omega) (by omega) (by omega), Nat.zero_mul, List.take_zero, List.nil_append,
      List.drop_eq_nil_of_le (by omega), List.append_nil]
  unfold forRange forFrom
  dsimp only
  rw [hslice, ok_bind, hrow, ok_bind, hcopy, ok_bind]
  rfl

/-- The matrix is its rows one after the other. -/
theorem flatten_rows (hxs : xs.length = n * w) : ((List.range n).map (row w xs)).flatten = xs := by
  have hfront : ∀ k, ((List.range k).map (row w xs)).flatten = xs.take (k * w) := by
    intro k
    induction k with
    | zero => rw [Nat.zero_mul]; rfl
    | succ k ih =>
      rw [List.range_succ, List.map_append, List.flatten_append, ih, Nat.succ_mul, List.take_add]
      simp [row]
  rw [hfront, ← hxs, List.take_length]

/-- The cells of a matrix, row after row. -/
theorem map_range_mul {β : Type} (f : Nat → β) (n w : Nat) :
    (List.range (n * w)).map f =
      (List.range n).flatMap fun r => (List.range w).map fun i => f (r * w + i) := by
  induction n with
  | zero => rw [Nat.zero_mul]; rfl
  | succ n ih =>
    rw [Nat.succ_mul, List.range_add, List.map_append, ih, List.range_succ, List.flatMap_append,
      List.flatMap_singleton, List.map_map]
    rfl

/-- Row `l` of rows put one after the other. -/
theorem slice_flatten {w l : Nat} {mats : List (List α)} {m : List α} (hw : ∀ x ∈ mats, x.length = w)
    (hl : mats[l]? = some m) :
    (slice mats.flatten (l * w) ((l + 1) * w) : Outcome ε (List α)) = .ok m := by
  obtain ⟨hlt, rfl⟩ := List.getElem?_eq_some_iff.mp hl
  have hlength : mats.flatten.length = mats.length * w := by
    rw [List.length_flatten, List.map_congr_left hw, List.map_const', List.sum_replicate_nat]
  have hrow : ∀ (l : Nat) (mats : List (List α)), (∀ x ∈ mats, x.length = w) → (h : l < mats.length) →
      row w mats.flatten l = mats[l] := by
    intro l
    induction l with
    | zero =>
      intro mats hw h
      obtain ⟨x, mats, rfl⟩ := List.exists_cons_of_length_pos h
      have hx : x.length = w := hw x List.mem_cons_self
      unfold row
      rw [Nat.zero_mul, List.drop_zero, List.flatten_cons, List.take_left' hx, List.getElem_cons_zero]
    | succ l ih =>
      intro mats hw h
      obtain ⟨x, mats, rfl⟩ := List.exists_cons_of_length_pos (Nat.lt_of_le_of_lt (Nat.zero_le _) h)
      have hx : x.length = w := hw x List.mem_cons_self
      have hshift : (l + 1) * w = x.length + l * w := by rw [Nat.succ_mul, hx, Nat.add_comm]
      have hnext := ih mats (fun y hy => hw y (List.mem_cons_of_mem x hy)) (by simpa using h)
      unfold row at hnext ⊢
      rw [List.flatten_cons, hshift, List.drop_length_add_append, List.getElem_cons_succ, hnext]
  rw [Nat.succ_mul, slice_eq_row hlt hlength, hrow l mats hw hlt]

section Blocks

theorem getElem?_finRange {n i : Nat} (hi : i < n) : (List.finRange n)[i]? = some ⟨i, hi⟩ := by
  rw [List.getElem?_eq_getElem (by rw [List.length_finRange]; exact hi), List.getElem_finRange]
  rfl

variable {β : Type} {f : β → List α} {w : Nat}

/-- Blocks that all decode to `w` cells: the cells of the later blocks. -/
theorem drop_flatMap (hf : ∀ b, (f b).length = w) (k : Nat) (blocks : List β) :
    (blocks.flatMap f).drop (k * w) = (blocks.drop k).flatMap f := by
  induction k generalizing blocks with
  | zero => rw [Nat.zero_mul, List.drop_zero, List.drop_zero]
  | succ k ih =>
    cases blocks with
    | nil => simp
    | cons b blocks =>
      have hshift : (k + 1) * w = (f b).length + k * w := by rw [Nat.succ_mul, hf, Nat.add_comm]
      rw [List.flatMap_cons, hshift, List.drop_length_add_append, ih, List.drop_succ_cons]

/-- The cells of the first blocks. -/
theorem take_flatMap (hf : ∀ b, (f b).length = w) (k : Nat) (blocks : List β) :
    (blocks.flatMap f).take (k * w) = (blocks.take k).flatMap f := by
  induction k generalizing blocks with
  | zero => rw [Nat.zero_mul, List.take_zero, List.take_zero, List.flatMap_nil]
  | succ k ih =>
    cases blocks with
    | nil => simp
    | cons b blocks =>
      have hshift : (k + 1) * w = (f b).length + k * w := by rw [Nat.succ_mul, hf, Nat.add_comm]
      rw [List.flatMap_cons, hshift, List.take_length_add_append, ih, List.take_succ_cons,
        List.flatMap_cons]

/-- Cell `i` of block `k`. -/
theorem getElem?_flatMap (hf : ∀ b, (f b).length = w) (blocks : List β) (k : Nat) {i : Nat} (hi : i < w) :
    (blocks.flatMap f)[k * w + i]? = blocks[k]?.bind fun b => (f b)[i]? := by
  rw [← List.getElem?_drop, drop_flatMap hf]
  cases hrest : blocks.drop k with
  | nil =>
    rw [List.getElem?_eq_none (List.drop_eq_nil_iff.mp hrest)]
    rfl
  | cons b rest =>
    have hk : blocks[k]? = some b := by
      rw [← Nat.add_zero k, ← List.getElem?_drop, hrest]
      rfl
    rw [hk, Option.bind_some, List.flatMap_cons, List.getElem?_append_left (by rw [hf]; exact hi)]

/-- Where two decoders agree on all the blocks, they agree on each. -/
theorem flatMap_inj {g : β → List α} (hf : ∀ b, (f b).length = w) (hg : ∀ b, (g b).length = w) {blocks : List β}
    (h : blocks.flatMap f = blocks.flatMap g) : ∀ b ∈ blocks, f b = g b := by
  induction blocks with
  | nil => exact fun b hb => absurd hb List.not_mem_nil
  | cons c blocks ih =>
    rw [List.flatMap_cons, List.flatMap_cons] at h
    obtain ⟨hfirst, hrest⟩ := List.append_inj h ((hf c).trans (hg c).symm)
    intro b hb
    rcases List.mem_cons.mp hb with rfl | hb
    · exact hfirst
    · exact ih hrest b hb

end Blocks

/-! ### Loops inside a row -/

/-- `f` on the matrix is `g` on row `r`, which never stops and keeps the width. -/
def InRow (w n r : Nat) (f g : List α → Outcome ε (List α)) : Prop :=
  ∀ xs : List α, xs.length = n * w → ∃ ys, g (row w xs r) = .ok ys ∧ ys.length = w ∧
    f xs = .ok (setRow w r ys xs)

theorem InRow.pure {w n r : Nat} (hr : r < n) :
    InRow w n r (fun xs => (.ok xs : Outcome ε (List α))) (fun xs => .ok xs) :=
  fun _ hxs => ⟨_, rfl, length_row hr hxs, by rw [setRow_row hr hxs]⟩

theorem InRow.bind {w n r : Nat} (hr : r < n) {f g f' g' : List α → Outcome ε (List α)}
    (h : InRow w n r f g) (h' : InRow w n r f' g') :
    InRow w n r (fun xs => f xs >>= f') (fun xs => g xs >>= g') := by
  intro xs hxs
  obtain ⟨ys, hg, hys, hf⟩ := h xs hxs
  have hlength : (setRow w r ys xs).length = n * w := by rw [length_setRow hr hxs hys, hxs]
  obtain ⟨zs, hg', hzs, hf'⟩ := h' _ hlength
  rw [row_setRow hr hxs hys] at hg'
  rw [setRow_setRow hr hxs hys hzs] at hf'
  refine ⟨zs, ?_, hzs, ?_⟩
  · dsimp only
    rw [hg, ok_bind, hg']
  · dsimp only
    rw [hf, ok_bind, hf']

theorem InRow.loop {w n r lo k : Nat} (hr : r < n) {body body' : Nat → List α → Outcome ε (List α)}
    (h : ∀ i, lo ≤ i → i < lo + k → InRow w n r (body i) (body' i)) :
    InRow w n r (forFrom lo k body) (forFrom lo k body') := by
  induction k generalizing lo with
  | zero => exact InRow.pure hr
  | succ k ih =>
    exact (h lo (Nat.le_refl lo) (by omega)).bind hr (ih fun i hlo hhi => h i (by omega) (by omega))

/-- The loops of a buffer that is one row. -/
theorem InRow.whole {w : Nat} {f g : List α → Outcome ε (List α)} (h : InRow w 1 0 f g) {xs : List α}
    (hxs : xs.length = w) : ∃ ys, f xs = .ok ys ∧ g xs = .ok ys ∧ ys.length = w := by
  obtain ⟨ys, hg, hys, hf⟩ := h xs (by rw [Nat.one_mul]; exact hxs)
  have hset : setRow w 0 ys xs = ys := by
    unfold setRow
    rw [Nat.zero_mul, List.take_zero, Nat.zero_add, ← hxs, List.drop_length, List.nil_append,
      List.append_nil]
  rw [row_whole hxs] at hg
  rw [hset] at hf
  exact ⟨ys, hf, hg, hys⟩

/-- A loop that replaces row after row. Its body may count on the row that it is about to replace. -/
theorem forRange_setRow {body : Nat → List α → Outcome ε (List α)} {v : Nat → List α} {n w : Nat} {init : List α}
    (hinit : init.length = n * w) (hv : ∀ r < n, (v r).length = w)
    (hbody : ∀ r < n, ∀ out : List α, out.length = n * w → row w out r = row w init r →
      body r out = .ok (setRow w r (v r) out)) :
    forRange n body init = .ok ((List.range n).map v).flatten := by
  -- after `k` rows, these are written and the others are as they were
  obtain ⟨out, hrun, hlength, hrows⟩ := @forFrom_ok ε (List α)
    (fun k out => out.length = n * w ∧ ∀ r < n, row w out r = if r < k then v r else row w init r) 0 n body init
    ⟨hinit, fun r _ => by rw [if_neg (Nat.not_lt_zero r)]⟩
    (by
      intro r out _ hr ⟨hlength, hrows⟩
      rw [Nat.zero_add] at hr
      have hsame := hrows r hr
      rw [if_neg (Nat.lt_irrefl r)] at hsame
      refine ⟨_, hbody r hr out hlength hsame, by rw [length_setRow hr hlength (hv r hr), hlength], fun s hs => ?_⟩
      by_cases heq : s = r
      · subst heq
        rw [row_setRow hr hlength (hv s hr), if_pos (Nat.lt_succ_self s)]
      · have hiff : s < r + 1 ↔ s < r := by omega
        rw [row_setRow_ne hr hlength (hv r hr) heq, hrows s hs]
        simp only [hiff])
  have hall : (List.range n).map v = (List.range n).map (row w out) := by
    apply List.map_congr_left
    intro r hr
    have hlt := List.mem_range.mp hr
    rw [hrows r hlt, if_pos (by omega)]
  rw [hall, flatten_rows hlength]
  exact hrun

end VitniTensor.Rows
