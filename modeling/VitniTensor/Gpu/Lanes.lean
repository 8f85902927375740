import VitniTensor.Lib.Loop
import VitniTensor.Quant.Canonical

/-!
# Lanes and trees on the device

The helpers that both backends write out again in their kernel languages, over arrays of fixed
size: the pairwise tree, in place, and the two loops that spread terms over eight lanes.
-/

namespace VitniTensor.Device

open Loop

variable {F : Type} [F32 F]

/-! ### The tree -/

/-- A level of the `while` loop of `fixed_tree`. -/
def treeLevel (len : Nat) (part : Nat → F) : Nat → F :=
  loop ((len + 1) / 2) (fun t part => Function.update part t
    (if 2 * t + 1 < len then F32.add (part (2 * t)) (part (2 * t + 1)) else part (2 * t))) part

/-- `while (len > 1)`; every level halves `len`. -/
def treeLevels : (levels len : Nat) → (Nat → F) → Nat → F
  | 0, _, part => part
  | levels + 1, len, part => if len > 1 then treeLevels levels ((len + 1) / 2) (treeLevel len part) else part

/-- `fixed_tree` of the CUDA kernels. -/
def fixedTree (part : Nat → F) (len : Nat) : F :=
  if len = 0 then F32.zero else treeLevels len len part 0

/-- `ftree8` of the Metal kernels. -/
def ftree8 (lane : Nat → F) : F :=
  let t0 := F32.add (lane 0) (lane 1)
  let t1 := F32.add (lane 2) (lane 3)
  let t2 := F32.add (lane 4) (lane 5)
  let t3 := F32.add (lane 6) (lane 7)
  let u0 := F32.add t0 t1
  let u1 := F32.add t2 t3
  F32.add u0 u1

/-- The cells of an array. -/
def cells (part : Nat → F) (len : Nat) : List F :=
  (List.range len).map part

omit [F32 F] in
theorem getElem?_cells (part : Nat → F) (len i : Nat) :
    (cells part len)[i]? = if i < len then some (part i) else none := by
  unfold cells
  rw [List.getElem?_map]
  split
  next h => rw [List.getElem?_range h]; rfl
  next h => rw [List.getElem?_eq_none (by rw [List.length_range]; omega)]; rfl

/-- A turn writes behind what later turns read. -/
theorem treeLevel_apply (len : Nat) (part : Nat → F) {t : Nat} (ht : t < (len + 1) / 2) :
    treeLevel len part t =
      if 2 * t + 1 < len then F32.add (part (2 * t)) (part (2 * t + 1)) else part (2 * t) := by
  have hloop := @loop_invariant (Nat → F) ((len + 1) / 2)
    (fun t part => Function.update part t
      (if 2 * t + 1 < len then F32.add (part (2 * t)) (part (2 * t + 1)) else part (2 * t))) part
    (fun k done => ∀ i, done i = if i < k then
      (if 2 * i + 1 < len then F32.add (part (2 * i)) (part (2 * i + 1)) else part (2 * i)) else part i)
    (fun i => rfl) (fun k _ done hdone i => ?_)
  · rw [treeLevel, hloop t, if_pos ht]
  · by_cases hik : i = k
    · subst hik
      have hlow : ¬2 * i < i := by omega
      have hhigh : ¬2 * i + 1 < i := by omega
      rw [Function.update_self, hdone, hdone, if_neg hlow, if_neg hhigh, if_pos (Nat.lt_succ_self i)]
    · have hiff : i < k + 1 ↔ i < k := by omega
      rw [Function.update_of_ne hik, hdone]
      simp only [hiff]

theorem cells_treeLevel (len : Nat) (part : Nat → F) :
    cells (treeLevel len part) ((len + 1) / 2) = PairTree.pairUp F32.add (cells part len) := by
  refine List.ext_getElem? fun t => ?_
  rw [PairTree.getElem?_pairUp, getElem?_cells, getElem?_cells, getElem?_cells]
  by_cases ht : t < (len + 1) / 2
  · have hlow : 2 * t < len := by omega
    rw [if_pos ht, if_pos hlow, treeLevel_apply len part ht]
    by_cases hpair : 2 * t + 1 < len
    · rw [if_pos hpair, if_pos hpair]
    · rw [if_neg hpair, if_neg hpair]
  · have hlow : ¬2 * t < len := by omega
    rw [if_neg ht, if_neg hlow]

theorem treeLevels_eq (levels : Nat) {len : Nat} (part : Nat → F) (hpos : 0 < len) :
    some (treeLevels levels len part 0) = (PairTree.levels F32.add levels (cells part len)).head? := by
  induction levels generalizing len part with
  | zero =>
    rw [treeLevels, PairTree.levels, List.head?_eq_getElem?, getElem?_cells, if_pos hpos]
  | succ levels ih =>
    unfold treeLevels
    split
    next hmore => rw [ih (treeLevel len part) (by omega), cells_treeLevel, PairTree.levels]
    next hone =>
      have hlength : (cells part len).length ≤ 1 := by
        unfold cells
        rw [List.length_map, List.length_range]
        omega
      rw [PairTree.levels_of_length_le_one _ hlength, List.head?_eq_getElem?, getElem?_cells, if_pos hpos]

theorem fixedTree_eq (part : Nat → F) (len : Nat) :
    fixedTree part len = PairTree.tree F32.add F32.zero (cells part len) := by
  unfold fixedTree
  split
  next hzero =>
    subst hzero
    rfl
  next hsome =>
    have hlength : (cells part len).length = len := by
      unfold cells
      rw [List.length_map, List.length_range]
    unfold PairTree.tree
    rw [hlength, List.headD_eq_head?_getD, ← treeLevels_eq len part (Nat.pos_of_ne_zero hsome)]
    rfl

theorem ftree8_eq (lane : Nat → F) : ftree8 lane = PairTree.tree F32.add F32.zero (cells lane canonLanes) := rfl

/-! ### Lanes -/

/-- `lanes[j] += p`. -/
def addLane (lanes : Nat → F) (j : Nat) (p : F) : Nat → F :=
  Function.update lanes j (F32.add (lanes j) p)

/-- The two loops over the lanes: whole groups of 8, and the tail. -/
def laneSums (n : Nat) (term : Nat → F) : Nat → F :=
  let full := n - n % 8
  let lanes := loop (full / 8)
    (fun g lanes => loop 8 (fun j lanes => addLane lanes j (term (8 * g + j))) lanes) fun _ => F32.zero
  loop (n % 8) (fun t lanes => addLane lanes ((full + t) % 8) (term (full + t))) lanes

/-- Lane `j` of the terms of the indices `is`. -/
def laneOf (v : Nat → F) (is : List Nat) (j : Nat) : F :=
  (is.filter fun i => i % canonLanes = j).foldl (fun acc i => F32.add acc (v i)) F32.zero

theorem addLane_laneOf (v : Nat → F) (is : List Nat) (i : Nat) :
    addLane (laneOf v is) (i % 8) (v i) = laneOf v (is ++ [i]) := by
  funext j
  unfold addLane laneOf
  rw [List.filter_append, List.filter_singleton]
  by_cases hj : i % 8 = j
  · subst hj
    simp
  · rw [Function.update_of_ne (Ne.symm hj)]
    simp [hj]

/-- The hot loop and the tail go once over all terms. -/
theorem laneSums_eq (n : Nat) (term : Nat → F) : laneSums n term = laneOf term (List.range n) := by
  have hgroup : ∀ g, loop 8 (fun j lanes => addLane lanes j (term (8 * g + j))) (laneOf term (List.range (8 * g))) =
      laneOf term (List.range (8 * g + 8)) := by
    intro g
    refine @loop_invariant (Nat → F) 8 _ _ (fun k lanes => lanes = laneOf term (List.range (8 * g + k))) rfl
      fun j hj lanes hlanes => ?_
    have hmod : (8 * g + j) % 8 = j := by omega
    have hstep := addLane_laneOf term (List.range (8 * g + j)) (8 * g + j)
    rw [hmod] at hstep
    rw [hlanes, hstep, ← List.range_succ]
    rfl
  have hwhole : loop ((n - n % 8) / 8)
      (fun g lanes => loop 8 (fun j lanes => addLane lanes j (term (8 * g + j))) lanes) (fun _ => F32.zero) =
      laneOf term (List.range (n - n % 8)) := by
    have hfull : 8 * ((n - n % 8) / 8) = n - n % 8 := by omega
    rw [← hfull]
    conv_lhs => rw [hfull]
    refine @loop_invariant (Nat → F) ((n - n % 8) / 8) _ _ (fun k lanes => lanes = laneOf term (List.range (8 * k)))
      rfl fun g _ lanes hlanes => ?_
    rw [hlanes, hgroup]
    rfl
  unfold laneSums
  dsimp only
  rw [hwhole]
  have htail := @loop_invariant (Nat → F) (n % 8)
    (fun t lanes => addLane lanes ((n - n % 8 + t) % 8) (term (n - n % 8 + t))) (laneOf term (List.range (n - n % 8)))
    (fun k lanes => lanes = laneOf term (List.range (n - n % 8 + k))) rfl fun t _ lanes hlanes => by
      rw [hlanes, addLane_laneOf, ← List.range_succ]
      rfl
  have hall : n - n % 8 + n % 8 = n := by omega
  rw [htail, hall]

/-- One chunk from the first term on. -/
theorem tree_laneSums (n : Nat) (term : Nat → F) :
    fixedTree (laneSums n term) 8 = rangeValue term 0 n ∧ ftree8 (laneSums n term) = rangeValue term 0 n := by
  have hcells : cells (laneSums n term) canonLanes = lanesOf term (List.range' 0 (n - 0)) := by
    rw [laneSums_eq, Nat.sub_zero, ← List.range_eq_range']
    rfl
  have htree : PairTree.tree F32.add F32.zero (cells (laneSums n term) canonLanes) = rangeValue term 0 n := by
    rw [hcells]
    rfl
  exact ⟨by rw [fixedTree_eq]; exact htree, by rw [ftree8_eq]; exact htree⟩

end VitniTensor.Device
