import VitniTensor.Quant.Canonical

/-!
# Counting additions

On floats that count, a reduction has as many leaves as its terms have, and one more for every lane that it
starts at zero. A sum in order starts one.
-/

namespace VitniTensor

open Outcome

/-- One more than the additions: the leaves of the expression. -/
def leaves (a : Cost) : Nat :=
  a.adds + 1

theorem leaves_add (a b : Cost) : leaves (F32.add a b) = leaves a + leaves b := by
  change a.adds + b.adds + 1 + 1 = a.adds + 1 + (b.adds + 1)
  omega

theorem leaves_tree {xs : List Cost} (hsome : xs ≠ []) :
    leaves (PairTree.tree F32.add F32.zero xs) = (xs.map leaves).sum := by
  rw [PairTree.map_tree F32.add leaves_add F32.zero 0 hsome, PairTree.tree_add]

theorem sum_map_range (n : Nat) (f : Nat → Nat) : ((List.range n).map f).sum = ∑ j ∈ Finset.range n, f j := rfl

theorem leaves_foldl (v : Nat → Cost) (is : List Nat) (a : Cost) :
    leaves (is.foldl (fun acc i => F32.add acc (v i)) a) = leaves a + (is.map fun i => leaves (v i)).sum := by
  induction is generalizing a with
  | nil => rfl
  | cons i is ih => rw [List.foldl_cons, ih, leaves_add, List.map_cons, List.sum_cons, Nat.add_assoc]

/-- Each lane starts at a zero. -/
theorem leaves_lanesOf (v : Nat → Cost) (is : List Nat) :
    ((lanesOf v is).map leaves).sum = 8 + (is.map fun i => leaves (v i)).sum := by
  have hsplit : ∑ j ∈ Finset.range canonLanes, ((is.filter fun i => i % canonLanes = j).map fun i => leaves (v i)).sum =
      (is.map fun i => leaves (v i)).sum := by
    induction is with
    | nil => simp
    | cons i is ih =>
      have hhere : ∀ j, (((i :: is).filter fun i => i % canonLanes = j).map fun i => leaves (v i)).sum =
          (if i % canonLanes = j then leaves (v i) else 0) +
            ((is.filter fun i => i % canonLanes = j).map fun i => leaves (v i)).sum := by
        intro j
        by_cases hj : i % canonLanes = j
        · simp [hj]
        · simp [hj]
      have hlt : i % canonLanes ∈ Finset.range canonLanes := Finset.mem_range.mpr (Nat.mod_lt i (by decide))
      rw [Finset.sum_congr rfl fun j _ => hhere j, Finset.sum_add_distrib, ih, Finset.sum_ite_eq, if_pos hlt,
        List.map_cons, List.sum_cons]
  unfold lanesOf
  rw [List.map_map, sum_map_range, ← hsplit]
  simp only [Function.comp_apply, leaves_foldl, Finset.sum_add_distrib]
  rfl

theorem leaves_rangeValue (v : Nat → Cost) (s e : Nat) :
    leaves (rangeValue v s e) = 8 + ((List.range' s (e - s)).map fun i => leaves (v i)).sum := by
  unfold rangeValue
  rw [leaves_tree (List.ne_nil_of_length_pos (by rw [length_lanesOf]; decide)), leaves_lanesOf]

/-- Every chunk starts eight lanes. -/
theorem leaves_canonicalValue (v : Nat → Cost) {n : Nat} (hsome : 0 < n) :
    leaves (canonicalValue v n) = 8 * ((n + canonChunk - 1) / canonChunk) + ∑ i ∈ Finset.range n, leaves (v i) := by
  have hlane : ∀ c j, leaves (laneSum v n c j) =
      1 + ∑ i ∈ Finset.range n with i / canonChunk = c ∧ i % canonLanes = j, leaves (v i) :=
    fun c j => leaves_foldl v _ F32.zero
  have hchunk : ∀ c, leaves (chunkSum v n c) = 8 + ∑ i ∈ Finset.range n with i / canonChunk = c, leaves (v i) := by
    intro c
    unfold chunkSum
    rw [leaves_tree (List.ne_nil_of_length_pos (by rw [List.length_map, List.length_range]; decide)), List.map_map,
      sum_map_range]
    simp only [Function.comp_apply, hlane, Finset.sum_add_distrib, sum_lanes]
    rfl
  have hcount : 0 < (n + canonChunk - 1) / canonChunk := by unfold canonChunk; omega
  unfold canonicalValue
  rw [leaves_tree (List.ne_nil_of_length_pos (by rw [List.length_map, List.length_range]; exact hcount)), List.map_map,
    sum_map_range]
  simp only [Function.comp_apply, hchunk, Finset.sum_add_distrib, sum_chunks]
  rw [Finset.sum_const_nat fun _ _ => rfl, Finset.card_range, Nat.mul_comm]

end VitniTensor
