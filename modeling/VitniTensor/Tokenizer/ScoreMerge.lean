import VitniTensor.Binary32
import VitniTensor.Tokenizer.Lossless

/-!
# Merging by score

The merge loop that both tokenizers with scores have: of all neighbours whose concatenation is in the
vocabulary, the pair of the highest score above negative infinity is replaced by the entry, the
leftmost one of several, as long as there is one.
-/

namespace VitniTensor

open Outcome GgufBpe Neighbours

/-- `score > best`. -/
abbrev Better (score best : Binary32) : Prop :=
  F32.lt best score = true

/-- Vocabulary, scores and reverse index. -/
structure ScoredVocab where
  vocab : List (List UInt8)
  scores : List Binary32
  byBytes : Std.TreeMap (List UInt8) UInt32

namespace ScoredVocab

/-- The vocabulary of these entries, where the first of several equal ones is in the index. -/
def ofEntries (entries : List (UInt32 × List UInt8)) : ScoredVocab where
  vocab := entries.map Prod.snd
  scores := entries.map fun e => F32.ofBits e.1
  byBytes := vocabOf (entries.map Prod.snd)

variable (v : ScoredVocab)

/-- One turn of the search: a better pair takes the place of the best so far. -/
def seePair (tokens : List UInt32) (i : Nat) (best : Binary32 × Option (UInt32 × Nat)) :
    Res (Binary32 × Option (UInt32 × Nat)) := do
  let a ← index tokens i
  let left ← index v.vocab a.toNat
  let b ← index tokens (i + 1)
  let right ← index v.vocab b.toNat
  match v.byBytes[left ++ right]? with
  | some id => do
    let score ← index v.scores id.toNat
    pure (if F32.lt best.1 score then (score, some (id, i)) else best)
  | none => pure best

/-- The search over `lo..tokens.len().saturating_sub(1)`. -/
def bestPair (lo : Nat) (tokens : List UInt32) : Res (Binary32 × Option (UInt32 × Nat)) :=
  forFrom lo (tokens.length - 1 - lo) (v.seePair tokens) (F32.negInfinity, none)

/-- The loop, which leaves alone what is in front of `lo`. -/
def mergeLoop (lo : Nat) (tokens : List UInt32) : Res (List UInt32) :=
  match v.bestPair lo tokens with
  | .error stop => .error stop
  | .ok (_, none) => .ok tokens
  | .ok (_, some (id, i)) =>
    if _h : i + 1 < tokens.length then mergeLoop lo (replaceAt tokens i id) else panic .outOfRange
termination_by tokens.length
decreasing_by
  have hlength := length_replaceAt (c := id) _h
  omega

/-! ### Scores -/

theorem score_contest : Contest Better F32.negInfinity where
  irrefl a h := by
    have hlt := ((Binary32.lt_iff_scaled a a).mp h).2.2
    exact absurd hlt (lt_irrefl _)
  trans a b c hab hbc := by
    obtain ⟨hb, ha, hlt⟩ := (Binary32.lt_iff_scaled b a).mp hab
    obtain ⟨hc, -, hlt'⟩ := (Binary32.lt_iff_scaled c b).mp hbc
    exact (Binary32.lt_iff_scaled c a).mpr ⟨hc, ha, lt_trans hlt' hlt⟩
  apart a b c hac hb := by
    obtain ⟨hc, ha, hlt⟩ := (Binary32.lt_iff_scaled c a).mp hac
    obtain ⟨-, hb, -⟩ := (Binary32.lt_iff_scaled F32.negInfinity b).mp hb
    rcases lt_or_ge b.scaled a.scaled with hba | hab
    · exact .inl ((Binary32.lt_iff_scaled b a).mpr ⟨hb, ha, hba⟩)
    · exact .inr ((Binary32.lt_iff_scaled c b).mpr ⟨hc, hb, lt_of_lt_of_le hlt hab⟩)

/-! ### Candidates -/

/-- The text of a token. -/
def bytesAt (id : UInt32) : List UInt8 :=
  v.vocab.getD id.toNat []

/-- The entry that two tokens make, and its score. -/
def entryOf (a b : UInt32) : Option (Binary32 × UInt32) :=
  v.byBytes[v.bytesAt a ++ v.bytesAt b]?.map fun id => (v.scores.getD id.toNat F32.negInfinity, id)

/-- The candidate at place `i`. -/
def candAt (tokens : List UInt32) (i : Nat) : Option (Binary32 × (UInt32 × Nat)) :=
  (v.entryOf (tokens.getD i 0) (tokens.getD (i + 1) 0)).map fun e => (e.1, e.2, i)

/-- There is a score for every entry, and the index leads to entries. -/
structure WellFormed : Prop where
  scored : v.scores.length = v.vocab.length
  indexed : v.byBytes = vocabOf v.vocab

theorem wellFormed_ofEntries (entries : List (UInt32 × List UInt8)) : (ofEntries entries).WellFormed where
  scored := by
    unfold ofEntries
    rw [List.length_map, List.length_map]
  indexed := rfl

/-- All ids are those of entries. -/
def Known (tokens : List UInt32) : Prop :=
  ∀ id ∈ tokens, id.toNat < v.vocab.length

variable {v} {lo : Nat} {tokens : List UInt32}

/-- The id of a string in the index is that of an entry, and of the string itself unless it wraps. -/
theorem WellFormed.byBytes (hwf : v.WellFormed) {s : List UInt8} {id : UInt32} (h : v.byBytes[s]? = some id) :
    id.toNat < v.vocab.length ∧ (v.vocab.length ≤ 2 ^ 32 → id.toNat = v.vocab.idxOf s ∧ v.bytesAt id = s) := by
  rw [hwf.indexed, vocabOf_eq_some] at h
  obtain ⟨hs, rfl⟩ := h
  have hlt := List.idxOf_lt_length_of_mem hs
  rw [UInt32.toNat_ofNat']
  constructor
  · exact Nat.lt_of_le_of_lt (Nat.mod_le _ _) hlt
  · intro hsmall
    have hid : v.vocab.idxOf s % 2 ^ 32 = v.vocab.idxOf s := Nat.mod_eq_of_lt (Nat.lt_of_lt_of_le hlt hsmall)
    refine ⟨hid, ?_⟩
    unfold bytesAt
    rw [UInt32.toNat_ofNat', hid, List.getD_eq_getElem?_getD, List.getElem?_idxOf hs, Option.getD_some]

theorem index_getD {α : Type} {xs : List α} {i : Nat} (h : i < xs.length) (default : α) :
    (index xs i : Res α) = .ok (xs.getD i default) :=
  index_eq_ok.mpr (getElem?_eq_getD h default)

theorem Known.getD (hknown : v.Known tokens) {i : Nat} (hi : i < tokens.length) :
    (tokens.getD i 0).toNat < v.vocab.length :=
  hknown _ (List.mem_of_getElem? (getElem?_eq_getD hi 0))

/-- One turn does not fail. -/
theorem seePair_eq (hwf : v.WellFormed) (hknown : v.Known tokens) {i : Nat} (hi : i + 1 < tokens.length)
    (best : Binary32 × Option (UInt32 × Nat)) :
    v.seePair tokens i best =
      .ok (see Better (v.candAt tokens) best i) := by
  have hi' : i < tokens.length := Nat.lt_of_succ_lt hi
  unfold seePair see candAt entryOf
  rw [index_getD hi' 0, ok_bind, index_getD (hknown.getD hi') [], ok_bind, index_getD hi 0, ok_bind,
    index_getD (hknown.getD hi) [], ok_bind]
  unfold bytesAt
  cases hentry : v.byBytes[v.vocab.getD (tokens.getD i 0).toNat [] ++ v.vocab.getD (tokens.getD (i + 1) 0).toNat []]? with
  | none => rfl
  | some id =>
    have hid := (hwf.byBytes hentry).1
    rw [← hwf.scored] at hid
    dsimp only [Option.map_some]
    rw [index_getD hid F32.negInfinity, ok_bind]
    rfl

/-- The search is a scan of the candidates. -/
theorem bestPair_eq_scan (hwf : v.WellFormed) (hknown : v.Known tokens) (lo : Nat) :
    v.bestPair lo tokens =
      .ok (scan Better (v.candAt tokens) F32.negInfinity lo
        (tokens.length - 1)) := by
  unfold bestPair scan
  generalize hn : tokens.length - 1 - lo = n
  have hinside : lo + n ≤ tokens.length - 1 ∨ n = 0 := by omega
  clear hn
  induction n with
  | zero => rfl
  | succ n ih =>
    rw [forFrom_succ_last, ih (by omega), ok_bind, seePair_eq hwf hknown (by omega), List.range'_concat, List.foldl_append,
      Nat.one_mul]
    rfl

/-! ### The loop -/

/-- One turn of the loop. -/
structure Step (v : ScoredVocab) (lo : Nat) (tokens next : List UInt32) : Prop where
  merged : ∃ score id i, v.bestPair lo tokens = .ok (score, some (id, i)) ∧ i + 1 < tokens.length ∧
    next = replaceAt tokens i id

theorem mergeLoop_of_step {next : List UInt32} (h : Step v lo tokens next) :
    v.mergeLoop lo tokens = v.mergeLoop lo next := by
  obtain ⟨score, id, i, hbest, hi, rfl⟩ := h.merged
  rw [mergeLoop, hbest]
  exact dif_pos hi

theorem mergeLoop_of_none {score : Binary32} (h : v.bestPair lo tokens = .ok (score, none)) :
    v.mergeLoop lo tokens = .ok tokens := by
  rw [mergeLoop, h]

/-- The winner of a search: `FirstBest` among the candidates. -/
theorem firstBest_of_bestPair (hwf : v.WellFormed) (hknown : v.Known tokens) {score : Binary32} {id : UInt32} {i : Nat}
    (h : v.bestPair lo tokens = .ok (score, some (id, i))) :
    FirstBest Better (v.candAt tokens) F32.negInfinity lo
      (tokens.length - 1) i score (id, i) := by
  rw [bestPair_eq_scan hwf hknown] at h
  obtain ⟨place, hfirst⟩ := (scan_eq_some score_contest).mp (Except.ok.inj h)
  obtain ⟨e, -, he⟩ := Option.map_eq_some_iff.mp hfirst.here
  cases he
  exact hfirst

theorem bestPair_of_firstBest (hwf : v.WellFormed) (hknown : v.Known tokens) {score : Binary32} {id : UInt32} {i : Nat}
    (h : FirstBest Better (v.candAt tokens) F32.negInfinity lo
      (tokens.length - 1) i score (id, i)) : v.bestPair lo tokens = .ok (score, some (id, i)) := by
  rw [bestPair_eq_scan hwf hknown, (scan_eq_some score_contest).mpr ⟨i, h⟩]

/-- The entry of a candidate. -/
theorem entryOf_of_candAt {i place : Nat} {score : Binary32} {id : UInt32}
    (h : v.candAt tokens i = some (score, id, place)) :
    v.entryOf (tokens.getD i 0) (tokens.getD (i + 1) 0) = some (score, id) ∧ place = i := by
  obtain ⟨e, he, heq⟩ := Option.map_eq_some_iff.mp h
  cases heq
  exact ⟨he, rfl⟩

theorem byBytes_of_entryOf {a b id : UInt32} {score : Binary32} (h : v.entryOf a b = some (score, id)) :
    v.byBytes[v.bytesAt a ++ v.bytesAt b]? = some id ∧ score = v.scores.getD id.toNat F32.negInfinity := by
  obtain ⟨id', hid, heq⟩ := Option.map_eq_some_iff.mp h
  cases heq
  exact ⟨hid, rfl⟩

/-- A step merges neighbours into an entry. -/
theorem Step.cases (hwf : v.WellFormed) (hknown : v.Known tokens) {next : List UInt32} (h : Step v lo tokens next) :
    ∃ score id i, lo ≤ i ∧ i + 1 < tokens.length ∧ next = replaceAt tokens i id ∧
      v.entryOf (tokens.getD i 0) (tokens.getD (i + 1) 0) = some (score, id) ∧
      v.byBytes[v.bytesAt (tokens.getD i 0) ++ v.bytesAt (tokens.getD (i + 1) 0)]? = some id := by
  obtain ⟨score, id, i, hbest, hi, rfl⟩ := h.merged
  have hfirst := firstBest_of_bestPair hwf hknown hbest
  obtain ⟨hentry, -⟩ := entryOf_of_candAt hfirst.here
  exact ⟨score, id, i, hfirst.low, hi, rfl, hentry, (byBytes_of_entryOf hentry).1⟩

theorem Step.length {next : List UInt32} (h : Step v lo tokens next) : next.length + 1 = tokens.length := by
  obtain ⟨score, id, i, -, hi, rfl⟩ := h.merged
  exact length_replaceAt hi

/-- What holds of all tokens, and of the entry of two such, holds of all after a step. -/
theorem Step.forall_mem (hwf : v.WellFormed) (hknown : v.Known tokens) {next : List UInt32} (h : Step v lo tokens next)
    {p : UInt32 → Prop} (hp : ∀ id ∈ tokens, p id)
    (hentry : ∀ a b id, p a → p b → v.byBytes[v.bytesAt a ++ v.bytesAt b]? = some id → p id) : ∀ id ∈ next, p id := by
  obtain ⟨score, id, i, -, hi, rfl, -, hbytes⟩ := h.cases hwf hknown
  have hat : ∀ {j : Nat}, j < tokens.length → p (tokens.getD j 0) := fun hj =>
    hp _ (List.mem_of_getElem? (getElem?_eq_getD hj 0))
  intro id' hid'
  rcases List.mem_or_eq_of_mem_set (List.mem_of_mem_eraseIdx hid') with hold | rfl
  · exact hp id' hold
  · exact hentry _ _ id' (hat (Nat.lt_of_succ_lt hi)) (hat hi) hbytes

theorem Step.known (hwf : v.WellFormed) (hknown : v.Known tokens) {next : List UInt32} (h : Step v lo tokens next) :
    v.Known next :=
  h.forall_mem hwf hknown hknown fun _ _ _ _ _ hbytes => (hwf.byBytes hbytes).1

/-- A step keeps the text, where no id wraps. -/
theorem Step.flatMap_bytesAt (hwf : v.WellFormed) (hsmall : v.vocab.length ≤ 2 ^ 32) (hknown : v.Known tokens)
    {next : List UInt32} (h : Step v lo tokens next) : next.flatMap v.bytesAt = tokens.flatMap v.bytesAt := by
  obtain ⟨score, id, i, -, hi, rfl, -, hbytes⟩ := h.cases hwf hknown
  apply flatMap_replaceAt v.bytesAt hi (getElem?_eq_getD (Nat.lt_of_succ_lt hi) 0) (getElem?_eq_getD hi 0)
  exact ((hwf.byBytes hbytes).2 hsmall).2

/-- The loop ends after a number of steps, where the search finds nothing more. -/
theorem run_mergeLoop (hwf : v.WellFormed) (lo : Nat) (hknown : v.Known tokens) :
    ∃ n out, v.mergeLoop lo tokens = .ok out ∧ Run (Step v lo) n tokens out ∧ v.Known out ∧
      NoneAbove Better (v.candAt out) F32.negInfinity lo
        (out.length - 1) := by
  generalize hlength : tokens.length = length
  induction length using Nat.strongRecOn generalizing tokens with
  | ind length ih =>
    have hbest := bestPair_eq_scan hwf hknown lo
    rcases hscan : scan Better (v.candAt tokens) F32.negInfinity lo
      (tokens.length - 1) with ⟨score, _ | ⟨id, i⟩⟩
    · rw [hscan] at hbest
      have hnone := (scan_eq_none score_contest).mp (congrArg Prod.snd hscan)
      exact ⟨0, tokens, mergeLoop_of_none hbest, .done tokens, hknown, hnone⟩
    · rw [hscan] at hbest
      have hplace := (firstBest_of_bestPair hwf hknown hbest).high
      have hstep : Step v lo tokens (replaceAt tokens i id) := ⟨score, id, i, hbest, by omega, rfl⟩
      have hshorter := hstep.length
      obtain ⟨n, out, hout, hrun, hknown', hnone⟩ := ih _ (by omega) (hstep.known hwf hknown) rfl
      exact ⟨n + 1, out, (mergeLoop_of_step hstep).trans hout, .more hstep hrun, hknown', hnone⟩

end ScoredVocab

end VitniTensor
