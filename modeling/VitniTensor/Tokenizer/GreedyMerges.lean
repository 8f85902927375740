import VitniTensor.Tokenizer.GgufBpe

/-!
# Merging by rank

What `bpe` does to a list of symbols: a run of steps, each of which merges the leftmost pair of
the lowest rank, up to a list that has no more pairs to merge. Nothing is assumed of the table.
-/

namespace VitniTensor

open Neighbours

namespace GgufBpe

variable (mergeRank : MergeRank)

/-- `u32::MAX`, which no pair beats from above. -/
abbrev noRank : UInt32 := UInt32.ofNat (2 ^ 32 - 1)

/-- The pair at `i` has the lowest rank, and it is the leftmost of those. -/
structure LeftmostLowest (symbols : List Symbol) (i : Nat) (r : UInt32) : Prop where
  pair : i + 1 < symbols.length
  ranked : rankAt mergeRank symbols i = some r
  mergeable : r < noRank
  lowest : ∀ (j : Nat) (r' : UInt32), j + 1 < symbols.length → rankAt mergeRank symbols j = some r' → r ≤ r'
  leftmost : ∀ (j : Nat) (r' : UInt32), j < i → rankAt mergeRank symbols j = some r' → r < r'

/-- One turn of the loop: the scan stops at the leftmost pair of the lowest rank, which is merged. -/
structure MergeStep (symbols next : List Symbol) : Prop where
  at_ : ∃ i r, bestPair mergeRank symbols = some i ∧ LeftmostLowest mergeRank symbols i r ∧
    next = mergeAt symbols i

/-- No pair of neighbours has a rank below `u32::MAX`. -/
def Merged (symbols : List Symbol) : Prop :=
  ∀ (i : Nat) (r : UInt32), i + 1 < symbols.length → rankAt mergeRank symbols i = some r → ¬r < noRank

variable {mergeRank}

theorem bestPair_leftmostLowest {symbols : List Symbol} {i : Nat} (h : bestPair mergeRank symbols = some i) :
    ∃ r, LeftmostLowest mergeRank symbols i r := by
  obtain ⟨r, hfirst⟩ := bestPair_first h
  obtain ⟨r', hrank, hr⟩ := Option.map_eq_some_iff.mp hfirst.here
  cases hr
  have hplace := hfirst.high
  refine ⟨r, by omega, hrank, hfirst.above, fun j r' hj hat => ?_, fun j r' hj hat => ?_⟩
  · apply UInt32.not_lt.mp
    exact hfirst.best j r' j (Nat.zero_le j) (by omega) (by simp [hat])
  · -- a pair of rank `u32::MAX` further left is above `r` too
    by_cases hmax : r' < noRank
    · exact hfirst.first j r' j (Nat.zero_le j) hj (by simp [hat]) hmax
    · exact UInt32.lt_of_lt_of_le hfirst.above (UInt32.not_lt.mp hmax)

theorem bestPair_none {symbols : List Symbol} (h : bestPair mergeRank symbols = none) : Merged mergeRank symbols := by
  rw [bestPair_eq, scan_eq_none (rank_contest _)] at h
  intro i r hi hat
  exact h i r i (Nat.zero_le i) (by omega) (by simp [hat])

/-! ### What a step does -/

theorem MergeStep.length {symbols next : List Symbol} (h : MergeStep mergeRank symbols next) :
    next.length + 1 = symbols.length := by
  obtain ⟨i, r, -, hlowest, rfl⟩ := h.at_
  exact length_mergeAt hlowest.pair

theorem flatten_mergeAt {symbols : List Symbol} {i : Nat} (h : i + 1 < symbols.length) :
    (mergeAt symbols i).flatten = symbols.flatten := by
  have hflat := flatMap_replaceAt id h (getElem?_eq_getD (by omega) []) (getElem?_eq_getD h []) rfl
  rw [List.flatMap_id, List.flatMap_id] at hflat
  exact hflat

theorem MergeStep.flatten {symbols next : List Symbol} (h : MergeStep mergeRank symbols next) :
    next.flatten = symbols.flatten := by
  obtain ⟨i, r, -, hlowest, rfl⟩ := h.at_
  exact flatten_mergeAt hlowest.pair

/-! ### What the loop does -/

/-- The loop is a run of steps to a list that has no more pairs to merge. -/
theorem run_bpe (mergeRank : MergeRank) (symbols : List Symbol) :
    ∃ n, Run (MergeStep mergeRank) n symbols (bpe mergeRank symbols) ∧ Merged mergeRank (bpe mergeRank symbols) := by
  induction symbols using bpe.induct mergeRank with
  | case1 symbols i hbest ih =>
    obtain ⟨r, hlowest⟩ := bestPair_leftmostLowest hbest
    obtain ⟨n, hrun, hmerged⟩ := ih
    rw [bpe]
    split
    next j hj =>
      cases hbest.symm.trans hj
      exact ⟨n + 1, .more ⟨i, r, hbest, hlowest, rfl⟩ hrun, hmerged⟩
    next hnone => cases hbest.symm.trans hnone
  | case2 symbols hbest =>
    rw [bpe]
    split
    next j hj => cases hbest.symm.trans hj
    next => exact ⟨0, .done symbols, bestPair_none hbest⟩

/-- For every table and every list of symbols: the loop ends after a number of steps, each of which
merges the leftmost pair among those of the lowest rank. As many symbols are gone as there were steps,
the concatenation is the same, and no pair that is left has a rank below `u32::MAX`. -/
theorem bpe_greedy (mergeRank : MergeRank) (symbols : List Symbol) :
    ∃ n, Run (MergeStep mergeRank) n symbols (bpe mergeRank symbols) ∧
      (bpe mergeRank symbols).length + n = symbols.length ∧
      (bpe mergeRank symbols).flatten = symbols.flatten ∧
      Merged mergeRank (bpe mergeRank symbols) := by
  obtain ⟨n, hrun, hmerged⟩ := run_bpe mergeRank symbols
  refine ⟨n, hrun, ?_, ?_, hmerged⟩
  · exact hrun.measure fun _ _ => MergeStep.length
  · apply hrun.keeps (fun s => s.flatten = symbols.flatten)
    · exact fun s s' hs hstep => hstep.flatten.trans hs
    · rfl

end GgufBpe

end VitniTensor
