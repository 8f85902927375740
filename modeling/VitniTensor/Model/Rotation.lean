import VitniTensor.Model.CacheRows
import VitniTensor.Model.Forward
import VitniTensor.Ops.Rope

/-!
# One rotation

The tensor operation, the interleaved loops of both forward passes and the split-half layout rotate
the same pairs by the same angles. The split-half layout is the interleaved one between a permutation
of each head and its inverse.
-/

namespace VitniTensor

open Outcome Rows Fill Rope

variable {F : Type} [F32 F]

/-! ### Loops over disjoint pairs -/

section Loops

variable {rot : Nat → F × F} {a b : Nat → Nat} {v : Nat → F} {xs : List F} {N : Nat}

/-- The cells of the first `n` pairs. -/
def pairCells (a b : Nat → Nat) (n : Nat) : List Nat :=
  (List.range n).flatMap fun m => [a m, b m]

theorem mem_pairCells {n c : Nat} : c ∈ pairCells a b n ↔ ∃ m < n, c = a m ∨ c = b m := by
  simp [pairCells]

theorem pairCells_succ (n : Nat) : pairCells a b (n + 1) = pairCells a b n ++ [a n, b n] := by
  simp [pairCells, List.range_succ]

/-- Pairs that share no cell can be rotated in place: none reads what another one wrote. -/
theorem rotateLoop_eq (hin : ∀ m < N, a m < xs.length ∧ b m < xs.length)
    (hfresh : ∀ m < N, a m ∉ pairCells a b m ∧ b m ∉ pairCells a b m)
    (hv : ∀ m < N, v (a m) = (turn (rot m) (xs.getD (a m) F32.zero) (xs.getD (b m) F32.zero)).1 ∧
      v (b m) = (turn (rot m) (xs.getD (a m) F32.zero) (xs.getD (b m) F32.zero)).2) :
    forRange N (fun m xs => rotate (rot m) (a m) (b m) xs) xs = .ok (fill v (pairCells a b N) xs) := by
  obtain ⟨ys, hrun, hys⟩ := @forFrom_ok Error (List F) (fun m ys => ys = fill v (pairCells a b m) xs) 0 N
    (fun m xs => rotate (rot m) (a m) (b m) xs) xs rfl (by
    rintro m ys - hm rfl
    rw [Nat.zero_add] at hm
    obtain ⟨ha, hb⟩ := hin m hm
    obtain ⟨hafresh, hbfresh⟩ := hfresh m hm
    obtain ⟨hva, hvb⟩ := hv m hm
    have hlength := length_fill v (pairCells a b m) xs
    have hold : ∀ c (hc : c < (fill v (pairCells a b m) xs).length), c ∉ pairCells a b m →
        (fill v (pairCells a b m) xs)[c] = xs.getD c F32.zero := by
      intro c hc hnot
      have hcell := getElem?_fill v (pairCells a b m) xs c
      rw [if_neg (fun h => hnot h.1), List.getElem?_eq_getElem hc] at hcell
      rw [List.getD_eq_getElem?_getD, ← hcell, Option.getD_some]
    refine ⟨_, rotate_ok (by rw [hlength]; exact ha) (by rw [hlength]; exact hb), ?_⟩
    rw [pairCells_succ, fill_append, fill_cons, fill_cons, fill_nil, hva, hvb,
      hold (a m) (by rw [hlength]; exact ha) hafresh, hold (b m) (by rw [hlength]; exact hb) hbfresh]
    rfl)
  rw [Nat.zero_add] at hys
  rw [hys] at hrun
  exact hrun

end Loops

/-! ### The interleaved layout -/

namespace Rope

theorem interleaved_congr {rot rot' : Nat → F × F} {xs : List F} (h : ∀ m, 2 * m < xs.length → rot m = rot' m) :
    interleaved rot xs = interleaved rot' xs := by
  unfold interleaved
  apply List.map_congr_left
  intro c hc
  have hlt := List.mem_range.mp hc
  unfold turnedCell
  rw [h (c / 2) (by omega)]

/-- The loop over the pairs of neighbours below `2 * N`. -/
theorem forRange_interleaved (rot : Nat → F × F) {xs : List F} {N : Nat} (hxs : 2 * N ≤ xs.length) :
    forRange N (fun m xs => rotate (rot m) (2 * m) (2 * m + 1) xs) xs =
      .ok ((interleaved rot xs).take (2 * N) ++ xs.drop (2 * N)) := by
  have hcells : ∀ c, c ∈ pairCells (2 * ·) (2 * · + 1) N ↔ c < 2 * N := by
    intro c
    rw [mem_pairCells]
    exact ⟨fun ⟨m, hm, h⟩ => by omega, fun h => ⟨c / 2, by omega, by omega⟩⟩
  have htake : ((interleaved rot xs).take (2 * N)).length = 2 * N := by
    rw [List.length_take, length_interleaved, Nat.min_eq_left hxs]
  rw [rotateLoop_eq (v := turnedCell rot xs)]
  · congr 1
    apply List.ext_getElem?
    intro c
    rw [getElem?_fill]
    by_cases hc : c < 2 * N
    · rw [if_pos ⟨(hcells c).mpr hc, by omega⟩, List.getElem?_append_left (by omega), List.getElem?_take_of_lt hc]
      unfold interleaved
      rw [List.getElem?_map, List.getElem?_range (by omega), Option.map_some]
    · rw [if_neg fun h => hc ((hcells c).mp h.1), List.getElem?_append_right (by omega), htake, List.getElem?_drop,
        Nat.add_sub_cancel' (by omega)]
  · intro m hm
    omega
  · intro m hm
    constructor
    all_goals
      intro hmem
      obtain ⟨k, hk, h⟩ := mem_pairCells.mp hmem
      omega
  · intro m hm
    exact ⟨turnedCell_even rot xs m, turnedCell_odd rot xs m⟩

end Rope

/-- The angle of a pass is that of the tensor operation. -/
theorem Pass.angle_eq (p : Pass F) (i : Nat) :
    p.angle (2 * i) = Rope.angle p.weights.ropeTheta p.pos p.headSize i :=
  rfl

/-- The rotation of pair `m` in the interleaved layout. -/
def Pass.pairAngle (p : Pass F) (m : Nat) : F × F :=
  p.angle (2 * m % p.headSize)

/-- The interleaved layout on the first `n` heads. -/
theorem Causal.rotated_front {p : Pass F} (hneox : p.weights.ropeNeox = false)
    (heven : p.headSize = 2 * (p.headSize / 2)) {n : Nat} {xs : List F} (hxs : n * p.headSize ≤ xs.length) :
    Causal.rotated p n xs =
      .ok ((interleaved p.pairAngle xs).take (n * p.headSize) ++ xs.drop (n * p.headSize)) := by
  obtain ⟨ys, hflat, hrot, -⟩ := (p.ropeFlat_inRow hneox heven hxs Nat.zero_lt_one).whole rfl
  have hpairs : n * p.headSize = 2 * (n * (p.headSize / 2)) := by
    rw [Nat.mul_left_comm, ← heven]
  rw [hpairs] at hxs ⊢
  rw [hrot, ← hflat, Nat.zero_mul, ← forRange_interleaved p.pairAngle hxs]
  unfold Pass.ropeFlat Pass.pairAngle
  simp only [Nat.zero_add]

theorem Causal.rotated_interleaved {p : Pass F} (hneox : p.weights.ropeNeox = false)
    (heven : p.headSize = 2 * (p.headSize / 2)) {n : Nat} {xs : List F} (hxs : xs.length = n * p.headSize) :
    Causal.rotated p n xs = .ok (interleaved p.pairAngle xs) := by
  rw [Causal.rotated_front hneox heven hxs.ge, ← hxs, List.drop_length, List.append_nil,
    List.take_of_length_le (length_interleaved _ _).le]

/-- One token of the tensor operation. -/
theorem Tensor.Is.rope_token {p : Pass F} (heven : p.headSize = 2 * (p.headSize / 2)) {n : Nat} {xs : List F}
    {t : Tensor F} (ht : t.Is [1, n, p.headSize] xs) (hxs : xs.length = n * p.headSize) (hmemory : xs.length < wordSize)
    (hn : n ≤ wordSize) (hpos : p.pos < wordSize) (htable : p.headSize / 2 * 4 < 2 ^ 63) :
    ∃ z, t.rope p.weights.ropeTheta p.pos = .ok z ∧ z.Is [1, n, p.headSize] (interleaved p.pairAngle xs) := by
  obtain ⟨z, hz, his⟩ := ht.fromF32_ok (length_interleaved p.pairAngle xs)
  refine ⟨z, ?_, his⟩
  have htokens := @tokens_eq F _ xs p.weights.ropeTheta p.pos 1 n p.headSize heven (by rw [Nat.one_mul]; exact hxs)
    hmemory (by rw [Nat.one_mul]; exact hn) (by omega) htable
  have hangles : interleaved (tensorAngle p.weights.ropeTheta p.pos n p.headSize) xs = interleaved p.pairAngle xs := by
    apply interleaved_congr
    intro m hm
    rw [hxs] at hm
    have hrem : 2 * m % p.headSize = 2 * (2 * m % p.headSize / 2) := by
      have hdvd : (2 * m % p.headSize) % 2 = 0 := by
        rw [heven, Nat.mul_mod_mul_left, Nat.mul_mod_right]
      omega
    unfold tensorAngle Pass.pairAngle
    rw [Nat.div_eq_of_lt hm, Nat.add_zero, hrem, Pass.angle_eq, ← hrem]
  rw [ht.rope_eq (by omega), htokens, ok_bind, hangles, hz]

/-! ### The split-half layout -/

/-- Where the permutation that sends element `2j` of a head to `j` and `2j+1` to `j + half` takes its
element `c` from. -/
def halfSource (headSize c : Nat) : Nat :=
  let i := c % headSize
  c - i + if i < headSize / 2 then 2 * i else 2 * (i - headSize / 2) + 1

/-- The same for the inverse permutation. -/
def pairSource (headSize c : Nat) : Nat :=
  let i := c % headSize
  c - i + if i % 2 = 0 then i / 2 else i / 2 + headSize / 2

/-- Even elements of each head to its first half, odd ones to its second. -/
def toHalves (headSize : Nat) (xs : List F) : List F :=
  (List.range xs.length).map fun c => xs.getD (halfSource headSize c) F32.zero

def toPairs (headSize : Nat) (xs : List F) : List F :=
  (List.range xs.length).map fun c => xs.getD (pairSource headSize c) F32.zero

section Halves

variable {n half size h j : Nat}

/-- Pair `j` of head `h`, in the split-half layout. -/
theorem halfSource_first (hsize : size = 2 * half) (hj : j < half) : halfSource size (h * size + j) = h * size + 2 * j := by
  have hmod : (h * size + j) % size = j := by
    rw [Nat.mul_comm, Nat.mul_add_mod, Nat.mod_eq_of_lt (by omega)]
  unfold halfSource
  simp only [hmod]
  rw [if_pos (by omega), Nat.add_sub_cancel]

theorem halfSource_second (hsize : size = 2 * half) (hj : j < half) :
    halfSource size (h * size + j + half) = h * size + 2 * j + 1 := by
  have hmod : (h * size + j + half) % size = j + half := by
    rw [Nat.add_assoc, Nat.mul_comm, Nat.mul_add_mod, Nat.mod_eq_of_lt (by omega)]
  unfold halfSource
  simp only [hmod]
  rw [if_neg (by omega)]
  omega

theorem pairSource_even (hsize : size = 2 * half) (hj : j < half) : pairSource size (h * size + 2 * j) = h * size + j := by
  have hmod : (h * size + 2 * j) % size = 2 * j := by
    rw [Nat.mul_comm h, Nat.mul_add_mod, Nat.mod_eq_of_lt (by omega)]
  unfold pairSource
  simp only [hmod]
  rw [if_pos (by omega)]
  omega

theorem pairSource_odd (hsize : size = 2 * half) (hj : j < half) :
    pairSource size (h * size + 2 * j + 1) = h * size + j + half := by
  have hmod : (h * size + 2 * j + 1) % size = 2 * j + 1 := by
    rw [Nat.add_assoc, Nat.mul_comm h, Nat.mul_add_mod, Nat.mod_eq_of_lt (by omega)]
  unfold pairSource
  simp only [hmod]
  rw [if_neg (by omega)]
  omega

/-- Every cell is the first or the second of a pair, in either layout. -/
theorem cell_cases (hsize : size = 2 * half) (hpos : 0 < half) {c : Nat} (hc : c < n * size) :
    ∃ h < n, ∃ j < half, (c = h * size + j ∨ c = h * size + j + half) := by
  have hlt := Nat.mod_lt c (show 0 < size by omega)
  have hsplit := Nat.div_add_mod' c size
  refine ⟨c / size, Nat.div_lt_of_lt_mul (by rwa [Nat.mul_comm]), ?_⟩
  by_cases hfirst : c % size < half
  · exact ⟨c % size, hfirst, .inl hsplit.symm⟩
  · exact ⟨c % size - half, by omega, .inr (by omega)⟩

theorem cell_cases' (hsize : size = 2 * half) (hpos : 0 < half) {c : Nat} (hc : c < n * size) :
    ∃ h < n, ∃ j < half, (c = h * size + 2 * j ∨ c = h * size + 2 * j + 1) := by
  have hlt := Nat.mod_lt c (show 0 < size by omega)
  have hsplit := Nat.div_add_mod' c size
  refine ⟨c / size, Nat.div_lt_of_lt_mul (by rwa [Nat.mul_comm]), c % size / 2, by omega, ?_⟩
  omega

/-- A cell determines its head and its place there. -/
theorem place_inj {h' i i' : Nat} (hi : i < size) (hi' : i' < size) (heq : h * size + i = h' * size + i') :
    h = h' ∧ i = i' := by
  have hdiv := congrArg (· / size) heq
  have hmod := congrArg (· % size) heq
  simp only [Nat.mul_comm _ size, Nat.mul_add_div (show 0 < size by omega), Nat.mul_add_mod, Nat.div_eq_of_lt hi,
    Nat.div_eq_of_lt hi', Nat.mod_eq_of_lt hi, Nat.mod_eq_of_lt hi', Nat.add_zero] at hdiv hmod
  exact ⟨hdiv, hmod⟩

theorem end_le (size : Nat) (hh : h < n) : h * size + size ≤ n * size := by
  rw [← Nat.succ_mul]
  exact Nat.mul_le_mul_right size hh

end Halves

section Permuted

variable {n half size : Nat} {xs : List F}

@[simp] theorem length_toHalves (size : Nat) (xs : List F) : (toHalves size xs).length = xs.length := by
  unfold toHalves
  rw [List.length_map, List.length_range]

@[simp] theorem length_toPairs (size : Nat) (xs : List F) : (toPairs size xs).length = xs.length := by
  unfold toPairs
  rw [List.length_map, List.length_range]

theorem getD_toHalves {c : Nat} (hc : c < xs.length) :
    (toHalves size xs).getD c F32.zero = xs.getD (halfSource size c) F32.zero := by
  unfold toHalves
  rw [List.getD_eq_getElem?_getD, List.getElem?_map, List.getElem?_range hc]
  rfl

theorem getD_toPairs {c : Nat} (hc : c < xs.length) :
    (toPairs size xs).getD c F32.zero = xs.getD (pairSource size c) F32.zero := by
  unfold toPairs
  rw [List.getD_eq_getElem?_getD, List.getElem?_map, List.getElem?_range hc]
  rfl

/-- Lists of one length are equal if their cells are. -/
theorem ext_getD {ys : List F} (hlength : xs.length = ys.length)
    (h : ∀ c < ys.length, xs.getD c F32.zero = ys.getD c F32.zero) : xs = ys := by
  apply List.ext_getElem hlength
  intro c hx hy
  have hcell := h c hy
  rwa [List.getD_eq_getElem?_getD, List.getD_eq_getElem?_getD, List.getElem?_eq_getElem hx,
    List.getElem?_eq_getElem hy] at hcell

/-- The two permutations are inverse to each other. -/
theorem toHalves_toPairs (hsize : size = 2 * half) (hpos : 0 < half) (hxs : xs.length = n * size) :
    toHalves size (toPairs size xs) = xs := by
  apply ext_getD (by rw [length_toHalves, length_toPairs])
  intro c hc
  rw [getD_toHalves (by rw [length_toPairs]; exact hc)]
  rw [hxs] at hc
  obtain ⟨h, hh, j, hj, rfl | rfl⟩ := cell_cases hsize hpos hc
  · have hend := end_le size hh
    rw [halfSource_first hsize hj, getD_toPairs (by omega), pairSource_even hsize hj]
  · have hend := end_le size hh
    rw [halfSource_second hsize hj, getD_toPairs (by omega), pairSource_odd hsize hj]

theorem toPairs_toHalves (hsize : size = 2 * half) (hpos : 0 < half) (hxs : xs.length = n * size) :
    toPairs size (toHalves size xs) = xs := by
  apply ext_getD (by rw [length_toPairs, length_toHalves])
  intro c hc
  rw [getD_toPairs (by rw [length_toHalves]; exact hc)]
  rw [hxs] at hc
  obtain ⟨h, hh, j, hj, rfl | rfl⟩ := cell_cases' hsize hpos hc
  · have hend := end_le size hh
    rw [pairSource_even hsize hj, getD_toHalves (by omega), halfSource_first hsize hj]
  · have hend := end_le size hh
    rw [pairSource_odd hsize hj, getD_toHalves (by omega), halfSource_second hsize hj]

/-- The split-half loops, flat: pair `m` is pair `m % half` of head `m / half`. -/
theorem Causal.rotated_flat {p : Pass F} (hneox : p.weights.ropeNeox = true) (n : Nat) (xs : List F) :
    Causal.rotated p n xs = forRange (n * (p.headSize / 2)) (fun m xs =>
      rotate (p.angle (2 * (m % (p.headSize / 2)))) (m / (p.headSize / 2) * p.headSize + m % (p.headSize / 2))
        (m / (p.headSize / 2) * p.headSize + m % (p.headSize / 2) + p.headSize / 2) xs) xs := by
  rw [forRange_mul]
  unfold Causal.rotated Causal.rotatedHead Causal.pairOf
  apply forFrom_congr (fun _ => True) trivial _ fun _ _ _ _ _ => trivial
  intro h ys _ _ _
  apply forFrom_congr (fun _ => True) trivial _ fun _ _ _ _ _ => trivial
  intro j zs _ hj _
  have hlt : j < p.headSize / 2 := by omega
  have hmod : (h * (p.headSize / 2) + j) % (p.headSize / 2) = j := by
    rw [Nat.mul_comm, Nat.mul_add_mod, Nat.mod_eq_of_lt hlt]
  have hdiv : (h * (p.headSize / 2) + j) / (p.headSize / 2) = h := by
    rw [Nat.mul_comm, Nat.mul_add_div (by omega), Nat.div_eq_of_lt hlt, Nat.add_zero]
  rw [if_pos hneox, hmod, hdiv, Nat.add_assoc]

/-- The split-half layout is the interleaved one, conjugated. -/
theorem Causal.rotated_halves {p : Pass F} (hneox : p.weights.ropeNeox = true)
    (heven : p.headSize = 2 * (p.headSize / 2)) (hpos : 0 < p.headSize) (hxs : xs.length = n * p.headSize) :
    Causal.rotated p n (toHalves p.headSize xs) = .ok (toHalves p.headSize (interleaved p.pairAngle xs)) := by
  obtain ⟨half, hhalf⟩ : ∃ half, p.headSize / 2 = half := ⟨_, rfl⟩
  rw [Causal.rotated_flat hneox, hhalf]
  rw [hhalf] at heven
  have hhalfPos : 0 < half := by omega
  -- pair `m` in the coordinates of its head
  have hcell : ∀ m < n * half, m / half < n ∧ m % half < half ∧ 2 * m = m / half * p.headSize + 2 * (m % half) ∧
      m / half * p.headSize + p.headSize ≤ xs.length := by
    intro m hm
    have hhead : m / half < n := Nat.div_lt_of_lt_mul (by rwa [Nat.mul_comm])
    have hsplit := Nat.div_add_mod' m half
    refine ⟨hhead, Nat.mod_lt m hhalfPos, ?_, by rw [hxs]; exact end_le p.headSize hhead⟩
    rw [heven, Nat.mul_left_comm]
    omega
  have hangle : ∀ m, p.pairAngle m = p.angle (2 * (m % half)) := by
    intro m
    unfold Pass.pairAngle
    rw [heven, Nat.mul_mod_mul_left]
  have hvalue : ∀ m < n * half, (interleaved p.pairAngle xs).getD (2 * m) F32.zero = turnedCell p.pairAngle xs (2 * m) ∧
      (interleaved p.pairAngle xs).getD (2 * m + 1) F32.zero = turnedCell p.pairAngle xs (2 * m + 1) := by
    intro m hm
    obtain ⟨-, hj, hflat, hend⟩ := hcell m hm
    constructor
    all_goals
      unfold interleaved
      rw [List.getD_eq_getElem?_getD, List.getElem?_map, List.getElem?_range (by omega)]
      rfl
  rw [rotateLoop_eq (v := fun c => (interleaved p.pairAngle xs).getD (halfSource p.headSize c) F32.zero), fill_all]
  · unfold toHalves
    simp only [List.length_map, List.length_range, length_interleaved]
  · intro c hc
    rw [length_toHalves, hxs] at hc
    obtain ⟨h, hh, j, hj, hplace⟩ := cell_cases heven hhalfPos hc
    have hdiv : (h * half + j) / half = h := by
      rw [Nat.mul_comm, Nat.mul_add_div hhalfPos, Nat.div_eq_of_lt hj, Nat.add_zero]
    have hmod : (h * half + j) % half = j := by
      rw [Nat.mul_comm, Nat.mul_add_mod, Nat.mod_eq_of_lt hj]
    refine mem_pairCells.mpr ⟨h * half + j, entry_lt hh hj, ?_⟩
    rwa [hdiv, hmod]
  · intro m hm
    obtain ⟨-, hj, -, hend⟩ := hcell m hm
    rw [length_toHalves]
    omega
  · intro m hm
    have hj := Nat.mod_lt m hhalfPos
    have hfresh : ∀ k < m, ∀ i i', (i = m % half ∨ i = m % half + half) → (i' = k % half ∨ i' = k % half + half) →
        m / half * p.headSize + i ≠ k / half * p.headSize + i' := by
      intro k hk i i' hi hi' heq
      have hj' := Nat.mod_lt k hhalfPos
      obtain ⟨hhead, hplace⟩ := place_inj (by omega) (by omega) heq
      have hsame : m % half = k % half := by omega
      have hm' := Nat.div_add_mod' m half
      rw [hhead, hsame, Nat.div_add_mod'] at hm'
      omega
    constructor
    all_goals
      intro hmem
      obtain ⟨k, hk, h | h⟩ := mem_pairCells.mp hmem
    · exact hfresh k hk _ _ (.inl rfl) (.inl rfl) h
    · exact hfresh k hk _ _ (.inl rfl) (.inr rfl) (by rwa [Nat.add_assoc] at h)
    · exact hfresh k hk _ _ (.inr rfl) (.inl rfl) (by rwa [Nat.add_assoc] at h)
    · exact hfresh k hk _ _ (.inr rfl) (.inr rfl) (by rwa [Nat.add_assoc, Nat.add_assoc] at h)
  · intro m hm
    obtain ⟨-, hj, hflat, hend⟩ := hcell m hm
    obtain ⟨hfirst, hsecond⟩ := hvalue m hm
    rw [halfSource_first heven hj, halfSource_second heven hj, getD_toHalves (by omega), getD_toHalves (by omega),
      halfSource_first heven hj, halfSource_second heven hj, ← hflat, hfirst, hsecond, turnedCell_even,
      turnedCell_odd, hangle]
    exact ⟨rfl, rfl⟩

end Permuted

/-! ### The implementations agree -/

/-- The query and the key of one token, as a step has them and as two tensors. -/
structure Pass.Token (p : Pass F) (n r : Nat) (q keys : List F) (qT kT : Tensor F) : Prop where
  heads : p.EvenHeads
  size : p.cfg.headSize = .ok p.headSize
  rows : r < n
  query : q.length = p.cfg.dim
  cache : keys.length = n * p.kvDim
  queryTensor : qT.Is [1, p.cfg.nHeads, p.headSize] q
  keyTensor : kT.Is [1, p.cfg.nKvHeads, p.headSize] (row p.kvDim keys r)
  memory : q.length * 4 < 2 ^ 63 ∧ keys.length * 4 < 2 ^ 63
  usize : p.pos < wordSize ∧ p.cfg.nHeads < wordSize ∧ p.cfg.nKvHeads < wordSize

/-- The sizes and the base frequency of the F32 pass are those of `p`. -/
structure DensePass.Like (d : DensePass F) (p : Pass F) : Prop where
  dim : d.cfg.dim = p.cfg.dim
  kvDim : d.kvDim = p.kvDim
  headSize : d.headSize = p.headSize
  pos : d.pos = p.pos
  theta : p.weights.ropeTheta = ropeBase

/-- A rotated key of which the loops over pairs leave everything from `dim` on as it was. -/
def Pass.frontOf (p : Pass F) (rotated key : List F) : List F :=
  rotated.take p.cfg.dim ++ key.drop p.cfg.dim

theorem DensePass.Like.ropePair_eq {d : DensePass F} {p : Pass F} (h : d.Like p) (off : Nat) :
    d.ropePair off = p.ropePair off := by
  have hangle : d.angle = p.angle := by
    funext num
    unfold DensePass.angle Pass.angle
    rw [h.headSize, h.pos, h.theta]
  funext m s
  unfold DensePass.ropePair Pass.ropePair
  rw [h.headSize, h.kvDim, hangle]
  rfl

/-- The pass with the interleaved layout. -/
def Pass.interleaving (p : Pass F) : Pass F :=
  { p with weights := { p.weights with ropeNeox := false } }

theorem Pass.ropePairs_front {p : Pass F} (hp : p.EvenHeads) {n r : Nat} (hr : r < n) {q keys : List F}
    (hq : q.length = p.cfg.dim) (hkeys : keys.length = n * p.kvDim) :
    forRange ((p.cfg.dim + 1) / 2) (p.ropePair (r * p.kvDim)) (q, keys) =
      .ok (interleaved p.pairAngle q, setRow p.kvDim r
        (p.frontOf (interleaved p.pairAngle (row p.kvDim keys r)) (row p.kvDim keys r)) keys) := by
  have hrow := length_row hr hkeys
  obtain ⟨q', k', hrotq, -, hrotk, -, hrun⟩ :=
    @Pass.ropePairs_rows F _ p.interleaving ⟨hp.dim, hp.kvDim, hp.even⟩ rfl n r hr q keys hq hkeys
  have hheads : min p.cfg.nHeads p.cfg.nKvHeads * p.headSize = min p.cfg.dim p.kvDim := by
    rw [← Nat.mul_min_mul_right, ← hp.dim, ← hp.kvDim]
  have hfront := @Causal.rotated_front F _ p.interleaving rfl hp.even (min p.cfg.nHeads p.cfg.nKvHeads)
    (row p.kvDim keys r) (by rw [hrow]; exact hheads.trans_le (Nat.min_le_right _ _))
  have hwhole := @Causal.rotated_interleaved F _ p.interleaving rfl hp.even p.cfg.nHeads q (hq.trans hp.dim)
  have hq' : q' = interleaved p.pairAngle q := Except.ok.inj (hrotq.symm.trans hwhole)
  -- the front is what lies below both `dim` and the end of the key
  have hk' : k' = p.frontOf (interleaved p.pairAngle (row p.kvDim keys r)) (row p.kvDim keys r) := by
    unfold Pass.frontOf
    rw [List.take_eq_take_min, @List.drop_eq_drop_min _ (row p.kvDim keys r), length_interleaved, hrow, ← hheads]
    exact Except.ok.inj (hrotk.symm.trans hfront)
  rw [← hq', ← hk']
  exact hrun

/-- The tensor operation on the query and on the key, the interleaved loops of both passes and the
split-half loops: one rotation. The loops over pairs stop at `dim`; there is no key beyond it unless
there are more key heads than query heads. -/
theorem rope_is_one_rotation {p : Pass F} {n r : Nat} {q keys : List F} {qT kT : Tensor F} (h : p.Token n r q keys qT kT) :
    ∃ q' k', (∃ z, qT.rope p.weights.ropeTheta p.pos = .ok z ∧ z.Is [1, p.cfg.nHeads, p.headSize] q') ∧
      (∃ z, kT.rope p.weights.ropeTheta p.pos = .ok z ∧ z.Is [1, p.cfg.nKvHeads, p.headSize] k') ∧
      (p.weights.ropeNeox = false → p.ropeBoth (r * p.kvDim) q keys =
        .ok (q', setRow p.kvDim r (p.frontOf k' (row p.kvDim keys r)) keys)) ∧
      (∀ d : DensePass F, d.Like p → forRange ((d.cfg.dim + 1) / 2) (d.ropePair (r * d.kvDim)) (q, keys) =
        .ok (q', setRow p.kvDim r (p.frontOf k' (row p.kvDim keys r)) keys)) ∧
      (p.cfg.nKvHeads ≤ p.cfg.nHeads → p.frontOf k' (row p.kvDim keys r) = k') ∧
      (p.weights.ropeNeox = true → 0 < p.headSize →
        p.ropeBoth (r * p.kvDim) (toHalves p.headSize q)
            (setRow p.kvDim r (toHalves p.headSize (row p.kvDim keys r)) keys) =
          .ok (toHalves p.headSize q', setRow p.kvDim r (toHalves p.headSize k') keys) ∧
        toPairs p.headSize (toHalves p.headSize q) = q ∧ toHalves p.headSize (toPairs p.headSize q) = q) := by
  obtain ⟨hp, hsize, hr, hq, hkeys, hqT, hkT, ⟨hqMemory, hkMemory⟩, hpos, hnHeads, hnKv⟩ := h
  have hrow := length_row hr hkeys
  have hend := row_end_le hr hkeys
  have hheads : 0 < p.cfg.nHeads := (div_eq_ok.mp hsize).1
  -- one head of the query, so the table of frequencies too, lies in memory
  have hhead : p.headSize ≤ q.length := by
    rw [hq, hp.dim]
    exact Nat.le_mul_of_pos_left _ hheads
  have hloops := p.ropePairs_front hp hr hq hkeys
  obtain ⟨zq, hzq, hisq⟩ := hqT.rope_token hp.even (hq.trans hp.dim) (by unfold wordSize; omega) hnHeads.le hpos (by omega)
  obtain ⟨zk, hzk, hisk⟩ := hkT.rope_token hp.even (hrow.trans hp.kvDim) (by unfold wordSize; omega) hnKv.le hpos (by omega)
  refine ⟨interleaved p.pairAngle q, interleaved p.pairAngle (row p.kvDim keys r), ⟨zq, hzq, hisq⟩, ⟨zk, hzk, hisk⟩,
    ?_, ?_, ?_, ?_⟩
  · intro hneox
    unfold Pass.ropeBoth
    rw [hneox, if_neg Bool.false_ne_true, hloops]
  · intro d hd
    rw [hd.ropePair_eq, hd.dim, hd.kvDim, hloops]
  · intro hle
    have hkv : p.kvDim ≤ p.cfg.dim := by
      rw [hp.dim, hp.kvDim]
      exact Nat.mul_le_mul_right _ hle
    unfold Pass.frontOf
    rw [List.take_of_length_le (by rw [length_interleaved, hrow]; exact hkv),
      List.drop_eq_nil_of_le (by rw [hrow]; exact hkv), List.append_nil]
  · intro hneox hpositive
    obtain ⟨half, hhalf⟩ : ∃ half, p.headSize / 2 = half := ⟨_, rfl⟩
    have heven := hp.even
    rw [hhalf] at heven
    have hwidth : (toHalves p.headSize (row p.kvDim keys r)).length = p.kvDim := by
      rw [length_toHalves, hrow]
    have hcache := (length_setRow hr hkeys hwidth).trans hkeys
    refine ⟨?_, toPairs_toHalves heven (by omega) (hq.trans hp.dim), toHalves_toPairs heven (by omega) (hq.trans hp.dim)⟩
    obtain ⟨q', k', hrotq, -, hrotk, hk', hrun⟩ := Pass.ropeBoth_rows hp (fun hflat => absurd hneox (by rw [hflat]; decide))
      hpositive hr ((length_toHalves _ _).trans hq) hcache
    rw [row_setRow hr hkeys hwidth, Causal.rotated_halves hneox hp.even hpositive (hrow.trans hp.kvDim)] at hrotk
    rw [Causal.rotated_halves hneox hp.even hpositive (hq.trans hp.dim)] at hrotq
    cases hrotq
    cases hrotk
    rw [hrun, setRow_setRow hr hkeys hwidth hk']

/-! ### More key heads than query heads -/

/-- A pass of one query head of size `size` at position 1, with `nKv` key heads. -/
def headsOf (size nKv : Nat) (neox : Bool) : Pass Cost where
  build := .serial
  blake3 := fun _ => Vector.replicate 32 0
  cfg := ⟨size, 0, 1, 1, nKv, 1, 2, false⟩
  weights :=
    { tokenEmbeddingTable := ⟨[], .f32, [], true⟩, layers := [], rmsFinalWeight := [], wcls := none, ropeTheta := ropeBase,
      rmsEps := rmsEpsilon, ropeNeox := neox }
  plan := none
  pos := 1
  kvDim := nKv * size
  kvMul := 1
  headSize := size
  regime := 2

def oneHeadQuery : Tensor Cost where
  storage := .f32 [⟨0⟩, ⟨0⟩]
  shape := ⟨[1, 1, 2], by decide⟩
  strides := [2, 2, 1]
  offset := 0
  dtype := .f32
  device := .cpu
  rowMajor := by decide
  atStart := Tensor.offset_zero
  tagged := rfl
  filled := rfl

def twoHeadsKey : Tensor Cost where
  storage := .f32 [⟨0⟩, ⟨0⟩, ⟨0⟩, ⟨0⟩]
  shape := ⟨[1, 2, 2], by decide⟩
  strides := [4, 2, 1]
  offset := 0
  dtype := .f32
  device := .cpu
  rowMajor := by decide
  atStart := Tensor.offset_zero
  tagged := rfl
  filled := rfl

theorem moreKeys_token (neox : Bool) :
    (headsOf 2 2 neox).Token 1 0 [⟨0⟩, ⟨0⟩] [⟨0⟩, ⟨0⟩, ⟨0⟩, ⟨0⟩] oneHeadQuery twoHeadsKey where
  heads := ⟨rfl, rfl, show 2 = 2 * (2 / 2) from rfl⟩
  size := show (div 2 1 : Res Nat) = .ok 2 from rfl
  rows := Nat.zero_lt_one
  query := rfl
  cache := rfl
  queryTensor := ⟨rfl, rfl, rfl⟩
  keyTensor := ⟨rfl, rfl, rfl⟩
  memory := ⟨by decide, by decide⟩
  usize := ⟨show 1 < wordSize by decide, show 1 < wordSize by decide, show 2 < wordSize by decide⟩

theorem moreKeys_rotation :
    ∃ q' k', (∃ z, oneHeadQuery.rope ropeBase 1 = .ok z ∧ z.Is [1, 1, 2] q') ∧
      (headsOf 2 2 true).ropeBoth (0 * 4) (toHalves 2 [⟨0⟩, ⟨0⟩])
          (setRow 4 0 (toHalves 2 (row 4 [⟨0⟩, ⟨0⟩, ⟨0⟩, ⟨0⟩] 0)) [⟨0⟩, ⟨0⟩, ⟨0⟩, ⟨0⟩]) =
        .ok (toHalves 2 q', setRow 4 0 (toHalves 2 k') [⟨0⟩, ⟨0⟩, ⟨0⟩, ⟨0⟩]) := by
  obtain ⟨q', k', hquery, -, -, -, -, hneox⟩ := rope_is_one_rotation (moreKeys_token true)
  exact ⟨q', k', hquery, (hneox rfl (by decide)).1⟩

/-- The second key head is rotated as a tensor and not in the loop; heads of size 0 stop the
split-half loops. -/
theorem moreKeys_unrotated :
    (headsOf 2 2 false).Token 1 0 [⟨0⟩, ⟨0⟩] [⟨0⟩, ⟨0⟩, ⟨0⟩, ⟨0⟩] oneHeadQuery twoHeadsKey ∧
      (twoHeadsKey.rope ropeBase 1 >>= DensePass.tensorAsF32) = .ok [⟨0⟩, ⟨1⟩, ⟨0⟩, ⟨1⟩] ∧
      (headsOf 2 2 false).ropeBoth 0 [⟨0⟩, ⟨0⟩] [⟨0⟩, ⟨0⟩, ⟨0⟩, ⟨0⟩] = .ok ([⟨0⟩, ⟨1⟩], [⟨0⟩, ⟨1⟩, ⟨0⟩, ⟨0⟩]) ∧
      (headsOf 0 1 true).ropeBoth 0 [] [] = .error (.panic .divideByZero) :=
  ⟨moreKeys_token false, by decide, by decide, by decide⟩

end VitniTensor
