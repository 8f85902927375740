import VitniTensor.Tokenizer.GgufSpm
import VitniTensor.Tokenizer.Llama2cMerges

/-!
# The BOS token

One tokenizer merges behind the BOS token, the other one from it on. For the first, the ids of a
text are the same behind a BOS token. For the second they are exactly if in no state that merging
the text alone reaches the BOS token and the first token would win.
-/

namespace VitniTensor

open Outcome Neighbours

namespace ScoredVocab

/-! ### Merging behind a token -/

/-- A pair one place further on. -/
def shiftPair (best : Binary32 × Option (UInt32 × Nat)) : Binary32 × Option (UInt32 × Nat) :=
  (best.1, best.2.map fun (id, i) => (id, i + 1))

variable (v : ScoredVocab) (x : UInt32) (tokens : List UInt32)

theorem seePair_cons (i : Nat) (best : Binary32 × Option (UInt32 × Nat)) :
    v.seePair (x :: tokens) (1 + i) (shiftPair best) = shiftPair <$> v.seePair tokens i best := by
  -- Behind one more token, position `i + 1` is what `i` was.
  have hindex : ∀ j, (index (x :: tokens) (1 + j) : Res UInt32) = index tokens j := by
    intro j
    unfold index
    rw [Nat.add_comm, List.getElem?_cons_succ]
  unfold seePair
  rw [Nat.add_assoc, hindex, hindex]
  simp only [map_bind]
  congr
  funext a
  congr
  funext left
  congr
  funext b
  congr
  funext right
  cases v.byBytes[left ++ right]? with
  | none => rfl
  | some id =>
    dsimp only
    rw [map_bind]
    congr
    funext score
    unfold shiftPair
    -- The comparison is unchanged, the position it keeps is one further on.
    by_cases hbetter : F32.lt best.1 score = true
    · rw [if_pos hbetter, if_pos hbetter, Nat.add_comm 1 i]
      rfl
    · rw [if_neg hbetter, if_neg hbetter]
      rfl

theorem bestPair_cons : v.bestPair 1 (x :: tokens) = shiftPair <$> v.bestPair 0 tokens := by
  have hcount : (x :: tokens).length - 1 - 1 = tokens.length - 1 - 0 := by
    rw [List.length_cons, Nat.add_sub_cancel, Nat.sub_zero]
  unfold bestPair
  rw [hcount, ← forFrom_map shiftPair (seePair_cons v x tokens)]
  exact forFrom_shift 1 0 _ _ _

variable {v x tokens}

/-- Merging behind a token is merging without it. -/
theorem mergeLoop_cons (v : ScoredVocab) (x : UInt32) (tokens : List UInt32) :
    v.mergeLoop 1 (x :: tokens) = (x :: ·) <$> v.mergeLoop 0 tokens := by
  generalize hlength : tokens.length = length
  -- Every merge shortens the tokens, so the induction is on their number.
  induction length using Nat.strongRecOn generalizing tokens with
  | ind length ih =>
    have hbest := bestPair_cons v x tokens
    rw [mergeLoop, mergeLoop]
    rcases hpair : v.bestPair 0 tokens with stop | ⟨score, _ | ⟨id, i⟩⟩
    -- The scan stopped, or found no pair, or found one and the loop goes on.
    · rw [hbest, hpair]
      rfl
    · rw [hbest, hpair]
      rfl
    · have hshift : v.bestPair 1 (x :: tokens) = .ok (score, some (id, i + 1)) := by
        rw [hbest, hpair]
        rfl
      rw [hshift]
      dsimp only
      by_cases hi : i + 1 < tokens.length
      · have hshorter := length_replaceAt (c := id) hi
        rw [dif_pos hi, dif_pos (by rw [List.length_cons]; omega), replaceAt_cons_succ]
        exact ih _ (by omega) _ rfl
      · rw [dif_neg hi, dif_neg (by rw [List.length_cons]; omega)]
        rfl

/-! ### Merging from a token on -/

/-- In front of these tokens the token would win: with the first of them it makes an entry with a score above
negative infinity, and no pair among them makes one with a higher score. -/
structure Swallows (v : ScoredVocab) (x : UInt32) (tokens : List UInt32) : Prop where
  wins : ∃ first rest score id, tokens = first :: rest ∧ v.entryOf x first = some (score, id) ∧
    F32.lt F32.negInfinity score = true ∧
    ∀ (j : Nat) (a b id' : UInt32) (score' : Binary32), tokens[j]? = some a → tokens[j + 1]? = some b →
      v.entryOf a b = some (score', id') → ¬F32.lt score score'

theorem candAt_cons_succ (v : ScoredVocab) (x : UInt32) (tokens : List UInt32) (j : Nat) :
    v.candAt (x :: tokens) (j + 1) = (v.candAt tokens j).map fun c => (c.1, c.2.1, c.2.2 + 1) := by
  unfold candAt
  rw [List.getD_cons_succ, List.getD_cons_succ, Option.map_map]
  rfl

/-- A candidate among the tokens is one place further on behind another token. -/
theorem candAt_of_cons {j : Nat} {score : Binary32} {c : UInt32 × Nat}
    (h : v.candAt (x :: tokens) (j + 1) = some (score, c)) : v.candAt tokens j = some (score, c.1, j) := by
  rw [candAt_cons_succ] at h
  obtain ⟨⟨score', id, place⟩, hcand, heq⟩ := Option.map_eq_some_iff.mp h
  obtain ⟨-, rfl⟩ := entryOf_of_candAt hcand
  cases heq
  exact hcand

theorem candAt_of_entryOf {j : Nat} {a b id : UInt32} {score : Binary32} (ha : tokens[j]? = some a)
    (hb : tokens[j + 1]? = some b) (h : v.entryOf a b = some (score, id)) : v.candAt tokens j = some (score, id, j) := by
  unfold candAt
  rw [List.getD_eq_getElem?_getD, ha, List.getD_eq_getElem?_getD, hb, Option.getD_some, Option.getD_some, h,
    Option.map_some]

/-- A candidate at the front is the token's, and it would win if no pair of the others were better. -/
theorem swallows_of_candAt {score : Binary32} {c : UInt32 × Nat} (htokens : tokens ≠ [])
    (h : v.candAt (x :: tokens) 0 = some (score, c)) (habove : Better score F32.negInfinity)
    (hbest : ∀ (j : Nat) (score' : Binary32) (c' : UInt32 × Nat), j < tokens.length - 1 →
      v.candAt tokens j = some (score', c') → ¬Better score' score) : Swallows v x tokens := by
  obtain ⟨first, rest, rfl⟩ := List.exists_cons_of_ne_nil htokens
  refine ⟨first, rest, score, c.1, rfl, (entryOf_of_candAt h).1, habove, ?_⟩
  intro j a b id' score' ha hb hentry
  exact hbest j score' (id', j) (lt_length_of_neighbour hb) (candAt_of_entryOf ha hb hentry)

variable (hwf : v.WellFormed) (hknown : v.Known (x :: tokens))
include hwf hknown

/-- Where the token would not win, the search finds the same pair. -/
theorem bestPair_not_swallows (h : ¬Swallows v x tokens) : v.bestPair 0 (x :: tokens) = shiftPair <$> v.bestPair 0 tokens := by
  have hknown' : v.Known tokens := fun id hid => hknown id (List.mem_cons_of_mem x hid)
  have hlength : (x :: tokens).length - 1 = tokens.length := Nat.add_sub_cancel _ _
  have htokens : 0 < tokens.length → tokens ≠ [] := List.length_pos_iff.mp
  rw [bestPair_eq_scan hwf hknown', bestPair_eq_scan hwf hknown, hlength]
  have hscanned := scanned_scan score_contest (v.candAt tokens) 0 (tokens.length - 1)
  generalize scan Better (v.candAt tokens) F32.negInfinity 0 (tokens.length - 1) = result at hscanned
  change _ = Except.ok (shiftPair result)
  congr
  cases hscanned with
  | nothing hnone =>
    apply scan_of_noneAbove score_contest
    intro j score c _ hj hcand habove
    cases j with
    | zero =>
      apply h (swallows_of_candAt (htokens hj) hcand habove _)
      intro j score' c' hj' hcand' hbetter
      exact hnone j score' c' (Nat.zero_le j) hj' hcand' (score_contest.trans _ _ _ hbetter habove)
    | succ j => exact hnone j score (c.1, j) (Nat.zero_le j) (by omega) (candAt_of_cons hcand) habove
  | @found i score c hfirst =>
    -- a candidate of the token's that is not below the best one would win
    have hlost : ∀ (score' : Binary32) (c' : UInt32 × Nat), v.candAt (x :: tokens) 0 = some (score', c') →
        Better score' F32.negInfinity → Better score score' := by
      intro score' c' hcand habove
      by_contra hnot
      have hhigh := hfirst.high
      apply h (swallows_of_candAt (htokens (by omega)) hcand habove _)
      intro j other c'' hj hcand' hbetter
      rcases score_contest.apart other score score' hbetter hfirst.above with hover | hbelow
      · exact hfirst.best j other c'' (Nat.zero_le j) hj hcand' hover
      · exact hnot hbelow
    refine (scan_eq_some score_contest).mpr ⟨i + 1, Nat.zero_le _, ?_, ?_, hfirst.above, ?_, ?_⟩
    · have hhigh := hfirst.high
      omega
    · rw [candAt_cons_succ, hfirst.here]
      rfl
    · intro j score' c' _ hj hcand hbetter
      cases j with
      | zero =>
        have habove := score_contest.trans _ _ _ hbetter hfirst.above
        have hback := hlost score' c' hcand habove
        exact score_contest.irrefl _ (score_contest.trans _ _ _ hbetter hback)
      | succ j => exact hfirst.best j score' (c'.1, j) (Nat.zero_le j) (by omega) (candAt_of_cons hcand) hbetter
    · intro j score' c' _ hj hcand habove
      cases j with
      | zero => exact hlost score' c' hcand habove
      | succ j => exact hfirst.first j score' (c'.1, j) (Nat.zero_le j) (by omega) (candAt_of_cons hcand) habove

/-- Where it would win, the first pair is merged. -/
theorem step_swallows (h : Swallows v x tokens) :
    ∃ first rest id, tokens = first :: rest ∧ v.byBytes[v.bytesAt x ++ v.bytesAt first]? = some id ∧
      Step v 0 (x :: tokens) (id :: rest) := by
  obtain ⟨first, rest, score, id, rfl, hentry, habove, hbest⟩ := h.wins
  refine ⟨first, rest, id, rfl, (byBytes_of_entryOf hentry).1, score, id, 0, ?_, ?_, rfl⟩
  · have hcand : v.candAt (x :: first :: rest) 0 = some (score, id, 0) := candAt_of_entryOf rfl rfl hentry
    apply bestPair_of_firstBest hwf hknown
    -- The pair at the front beats every later pair, so the scan keeps it.
    refine ⟨Nat.le_refl 0, Nat.succ_pos _, hcand, habove, ?_, fun j _ _ _ hj => absurd hj (Nat.not_lt_zero j)⟩
    intro j score' c' _ hj hcand' hbetter
    cases j with
    | zero =>
      cases hcand.symm.trans hcand'
      exact score_contest.irrefl _ hbetter
    | succ j =>
      have hj' : j + 1 < (first :: rest).length := by
        rw [List.length_cons] at hj
        omega
      obtain ⟨hentry', -⟩ := entryOf_of_candAt (candAt_of_cons hcand')
      exact hbest j _ _ c'.1 score' (getElem?_eq_getD (Nat.lt_of_succ_lt hj') 0) (getElem?_eq_getD hj' 0) hentry' hbetter
  · exact Nat.succ_lt_succ (Nat.succ_pos _)

/-- If the token would win in no state of the run, its run is that of the tokens behind it. -/
theorem mergeLoop_never_swallows (hnever : ∀ k tokens', Run (Step v 0) k tokens tokens' → ¬Swallows v x tokens') :
    v.mergeLoop 0 (x :: tokens) = (x :: ·) <$> v.mergeLoop 0 tokens := by
  generalize hlength : tokens.length = length
  induction length using Nat.strongRecOn generalizing tokens with
  -- Induction on the number of tokens, along the run without the token in front.
  | ind length ih =>
    have hknown' : v.Known tokens := fun id hid => hknown id (List.mem_cons_of_mem x hid)
    have hbest := bestPair_not_swallows hwf hknown (hnever 0 tokens (.done tokens))
    rcases hpair : v.bestPair 0 tokens with stop | ⟨score, _ | ⟨id, i⟩⟩
    · rw [bestPair_eq_scan hwf hknown'] at hpair
      cases hpair
    · rw [hpair] at hbest
      rw [mergeLoop_of_none hpair, mergeLoop_of_none hbest]
      rfl
    -- The pair found without it is the pair found with it, one place further on.
    · rw [hpair] at hbest
      have hi := (firstBest_of_bestPair hwf hknown' hpair).high
      have hstep : Step v 0 tokens (replaceAt tokens i id) := ⟨score, id, i, hpair, by omega, rfl⟩
      have hstep' : Step v 0 (x :: tokens) (x :: replaceAt tokens i id) :=
        ⟨score, id, i + 1, hbest, by rw [List.length_cons]; omega, (replaceAt_cons_succ x tokens i id).symm⟩
      have hshorter := hstep.length
      rw [mergeLoop_of_step hstep, mergeLoop_of_step hstep']
      exact ih _ (by omega) (hstep'.known hwf hknown) (fun k tokens' hrun => hnever (k + 1) tokens' (.more hstep hrun)) rfl

omit hknown

/-- The text of the first token only grows. -/
theorem Step.front (hsmall : v.vocab.length ≤ 2 ^ 32) {next : List UInt32} (hknown : v.Known (x :: tokens))
    (h : Step v 0 (x :: tokens) next) :
    ∃ x' rest, next = x' :: rest ∧ v.bytesAt x <+: v.bytesAt x' := by
  obtain ⟨score, id, i, -, hi, rfl, -, hbytes⟩ := h.cases hwf hknown
  cases i with
  | zero =>
    obtain ⟨b, rest, rfl⟩ := List.exists_cons_of_ne_nil (List.length_pos_iff.mp (Nat.lt_of_succ_lt_succ hi))
    refine ⟨id, rest, rfl, ?_⟩
    rw [((hwf.byBytes hbytes).2 hsmall).2]
    exact List.prefix_append _ _
  | succ i => exact ⟨x, replaceAt tokens i id, replaceAt_cons_succ x tokens i id, List.prefix_rfl⟩

/-- Once the token has taken in a text, the run ends differently. -/
theorem mergeLoop_swallows (hsmall : v.vocab.length ≤ 2 ^ 32) (hknown : v.Known (x :: tokens))
    (htexts : ∀ id ∈ tokens, v.bytesAt id ≠ []) (h : Swallows v x tokens) (out : List UInt32) :
    v.mergeLoop 0 (x :: tokens) ≠ .ok (x :: out) := by
  obtain ⟨first, rest, id, rfl, hbytes, hstep⟩ := step_swallows hwf hknown h
  have hknown' := hstep.known hwf hknown
  obtain ⟨n, out', hout', hrun, -⟩ := run_mergeLoop hwf 0 hknown'
  -- The token in front only grows from here on: its bytes stay a prefix.
  obtain ⟨-, x', rest', rfl, hprefix⟩ := hrun.keeps
    (fun s => v.Known s ∧ ∃ x' rest', s = x' :: rest' ∧ v.bytesAt id <+: v.bytesAt x')
    (fun s s' hs hnext => by
      obtain ⟨hs, x', rest', rfl, hprefix⟩ := hs
      obtain ⟨x'', rest'', rfl, hlonger⟩ := hnext.front hwf hsmall hs
      exact ⟨hnext.known hwf hs, x'', rest'', rfl, hprefix.trans hlonger⟩)
    ⟨hknown', id, rest, rfl, List.prefix_rfl⟩
  rw [mergeLoop_of_step hstep, hout']
  intro heq
  cases heq
  -- They are longer than what the front token was, so the loops cannot agree.
  rw [((hwf.byBytes hbytes).2 hsmall).2] at hprefix
  have hlength := hprefix.length_le
  rw [List.length_append] at hlength
  exact htexts first List.mem_cons_self (List.eq_nil_of_length_eq_zero (by omega))

/-- If the results agree, the token would win in no state of the run. -/
theorem never_swallows (hsmall : v.vocab.length ≤ 2 ^ 32) (hknown : v.Known (x :: tokens))
    (htexts : ∀ id ∈ tokens, v.bytesAt id ≠ []) {out : List UInt32} (hout : v.mergeLoop 0 tokens = .ok out)
    (hsame : v.mergeLoop 0 (x :: tokens) = .ok (x :: out)) {n : Nat} {tokens' : List UInt32}
    (hrun : Run (Step v 0) n tokens tokens') : ¬Swallows v x tokens' := by
  -- Induction on the run; at each state, swallowing would contradict equal results.
  induction hrun with
  | done s => exact fun h => mergeLoop_swallows hwf hsmall hknown htexts h out hsame
  | @more n s s' t hstep _ ih =>
    have hknown' : v.Known s := fun id hid => hknown id (List.mem_cons_of_mem x hid)
    have hnot : ¬Swallows v x s := fun h => mergeLoop_swallows hwf hsmall hknown htexts h out hsame
    have hbest := bestPair_not_swallows hwf hknown hnot
    obtain ⟨score, id, i, hpair, hi, rfl⟩ := hstep.merged
    rw [hpair] at hbest
    have hstep' : Step v 0 (x :: s) (x :: replaceAt s i id) :=
      ⟨score, id, i + 1, hbest, by rw [List.length_cons]; omega, (replaceAt_cons_succ x s i id).symm⟩
    apply ih (hstep'.known hwf hknown)
    -- No merged token has an empty text.
    · apply hstep.forall_mem hwf hknown' htexts
      intro a b id' ha _ hbytes
      rw [((hwf.byBytes hbytes).2 hsmall).2]
      exact fun hnil => ha (List.append_eq_nil_iff.mp hnil).1
    · rwa [← mergeLoop_of_step hstep]
    · rwa [← mergeLoop_of_step hstep']

/-- A token that makes no entry with another one wins in no state. -/
theorem not_swallows_of_run {n : Nat} {tokens' : List UInt32} (hknown : v.Known tokens)
    (halone : ∀ i < v.vocab.length, v.entryOf x (UInt32.ofNat i) = none) (hrun : Run (Step v 0) n tokens tokens') :
    ¬Swallows v x tokens' := by
  have hknown' := hrun.keeps v.Known (fun s s' hs hstep => hstep.known hwf hs) hknown
  rintro ⟨first, rest, score, id, rfl, hentry, -, -⟩
  have hnone := halone first.toNat (hknown' first List.mem_cons_self)
  rw [UInt32.ofNat_toNat, hentry] at hnone
  cases hnone

end ScoredVocab

/-- With BOS there is a `1` in front of the ids, and nothing else changes. -/
def PrependsBos (encode : Bool → Res (List UInt32)) : Prop :=
  ∃ ids, encode false = .ok ids ∧ encode true = .ok (1 :: ids)

namespace GgufSpmTokenizer

/-- The tokenizer of these entries. -/
def ofEntries (entries : List (UInt32 × List UInt8)) : GgufSpmTokenizer :=
  ofLists (entries.map Prod.snd) (entries.map fun e => F32.ofBits e.1)

theorem known_charIds (vocab : List (List UInt8)) (scores : List Binary32) (hwf : (ofLists vocab scores).WellFormed)
    (ch : Char) : (ofLists vocab scores).Known ((ofLists vocab scores).charIds ch) := by
  intro id hid
  unfold charIds at hid
  -- A character in the vocabulary has one id, any other the ids of its bytes.
  dsimp only at hid
  split at hid
  next id' hentry =>
    rw [List.mem_singleton.mp hid]
    exact (hwf.byBytes hentry).1
  next =>
    obtain ⟨b, -, hb⟩ := List.mem_filterMap.mp hid
    obtain ⟨i, v, hi, -, rfl⟩ := GgufSpm.byteFallbackOf_eq_some hb
    rw [UInt32.toNat_ofNat']
    exact Nat.lt_of_le_of_lt (Nat.mod_le _ _) (List.getElem?_eq_some_iff.mp hi).1

theorem known_textIds (entries : List (UInt32 × List UInt8)) (text : String) :
    (ofEntries entries).Known ((ofEntries entries).textIds text) := by
  intro id hid
  unfold textIds at hid
  obtain ⟨ch, -, hch⟩ := List.mem_flatMap.mp hid
  exact known_charIds _ _ (ScoredVocab.wellFormed_ofEntries entries) ch id hch

/-- This tokenizer leaves the BOS token alone. -/
theorem prependsBos_encode (entries : List (UInt32 × List UInt8)) (text : String) :
    PrependsBos ((ofEntries entries).encode text) := by
  have hwf : (ofEntries entries).WellFormed := ScoredVocab.wellFormed_ofEntries entries
  obtain ⟨n, out, hout, -⟩ := ScoredVocab.run_mergeLoop hwf 0 (known_textIds entries text)
  have hcons := ScoredVocab.mergeLoop_cons (ofEntries entries).toScoredVocab 1 ((ofEntries entries).textIds text)
  rw [hout] at hcons
  refine ⟨out, ?_, ?_⟩
  · rw [encode_false, hout]
  · rw [encode_true, hcons]
    rfl

end GgufSpmTokenizer

namespace Llama2cTokenizer

/-- **BOS and the text**: for every vocabulary of at least two entries and every text, the one
tokenizer only puts the BOS token in front. The other one does so if in no state that merging the text
alone reaches the BOS token would win, and, where no id wraps, only then. -/
theorem prependsBos_iff (entries : List (UInt32 × List UInt8)) (htwo : 2 ≤ entries.length) (maxTokenLength : Nat)
    (text : String) :
    PrependsBos ((GgufSpmTokenizer.ofEntries entries).encode text) ∧
    ((∀ n tokens, Run (ScoredVocab.Step (ScoredVocab.ofEntries entries) 0) n
        (byteIds ⟨ScoredVocab.ofEntries entries, maxTokenLength⟩ text) tokens →
        ¬ScoredVocab.Swallows (ScoredVocab.ofEntries entries) 1 tokens) →
      PrependsBos (encode ⟨ScoredVocab.ofEntries entries, maxTokenLength⟩ text)) ∧
    (entries.length ≤ 2 ^ 32 → PrependsBos (encode ⟨ScoredVocab.ofEntries entries, maxTokenLength⟩ text) →
      ∀ n tokens, Run (ScoredVocab.Step (ScoredVocab.ofEntries entries) 0) n
        (byteIds ⟨ScoredVocab.ofEntries entries, maxTokenLength⟩ text) tokens →
        ¬ScoredVocab.Swallows (ScoredVocab.ofEntries entries) 1 tokens) := by
  have hwf := ScoredVocab.wellFormed_ofEntries entries
  have hlength : (ScoredVocab.ofEntries entries).vocab.length = entries.length := List.length_map _
  have hids := @known_byteIds ⟨ScoredVocab.ofEntries entries, maxTokenLength⟩ hwf text
  have hknown : (ScoredVocab.ofEntries entries).Known
      (1 :: byteIds ⟨ScoredVocab.ofEntries entries, maxTokenLength⟩ text) := by
    intro id hid
    rcases List.mem_cons.mp hid with rfl | hbyte
    · rw [hlength]
      exact htwo
    · exact hids id hbyte
  obtain ⟨k, out, hout, -⟩ := ScoredVocab.run_mergeLoop hwf 0 hids
  refine ⟨GgufSpmTokenizer.prependsBos_encode entries text, fun hnever => ⟨out, hout, ?_⟩, ?_⟩
  -- As long as the front token is never swallowed, it stays in front.
  · have hsame := ScoredVocab.mergeLoop_never_swallows hwf hknown hnever
    rw [hout] at hsame
    exact hsame
  -- Conversely a result with the token in front rules swallowing out along the run.
  · rintro hsmall ⟨ids, hids', hbos⟩ n tokens hrun
    apply ScoredVocab.never_swallows hwf (hlength ▸ hsmall) hknown _ hids' hbos hrun
    intro id hid
    obtain ⟨b, -, hb⟩ := List.mem_filterMap.mp hid
    rw [((hwf.byBytes hb).2 (hlength ▸ hsmall)).2]
    exact List.cons_ne_nil _ _

/-- A vocabulary in which the BOS token begins no other entry. -/
def pairEntries : List (UInt32 × List UInt8) :=
  [(0, "<unk>".asBytes), (0, "<s>".asBytes), (0, "a".asBytes), (0, "b".asBytes), (0, "ab".asBytes)]

theorem prependsBos_iff_pair :
    PrependsBos ((GgufSpmTokenizer.ofEntries pairEntries).encode "ab") ∧
    PrependsBos (encode ⟨ScoredVocab.ofEntries pairEntries, 5⟩ "ab") ∧
    ¬ScoredVocab.Swallows (ScoredVocab.ofEntries pairEntries) 1
      (byteIds ⟨ScoredVocab.ofEntries pairEntries, 5⟩ "ab") := by
  obtain ⟨hspm, hif, honlyIf⟩ := prependsBos_iff pairEntries (by decide) 5 "ab"
  have hwf := ScoredVocab.wellFormed_ofEntries pairEntries
  have halone : ∀ n < pairEntries.length, (ScoredVocab.ofEntries pairEntries).entryOf 1 (UInt32.ofNat n) = none := by
    decide
  have hprepends := hif fun n tokens hrun => ScoredVocab.not_swallows_of_run hwf (known_byteIds hwf "ab") halone hrun
  exact ⟨hspm, hprepends, honlyIf (by decide) hprepends 0 _ (.done _)⟩

/-- A vocabulary with an entry that goes on where the BOS token ends. -/
def startEntries : List (UInt32 × List UInt8) :=
  [(0, "<unk>".asBytes), (0, "<s>".asBytes), (0, "a".asBytes), (0, "<s>a".asBytes)]

/-- There the BOS token takes in the text. -/
theorem bos_swallows_text :
    encode ⟨ScoredVocab.ofEntries startEntries, 5⟩ "a" false = .ok [2] ∧
    encode ⟨ScoredVocab.ofEntries startEntries, 5⟩ "a" true = .ok [3] ∧
    ¬PrependsBos (encode ⟨ScoredVocab.ofEntries startEntries, 5⟩ "a") := by
  -- Merging starts at index 0, so the pair of BOS and `a` is seen first.
  have hids : byteIds ⟨ScoredVocab.ofEntries startEntries, 5⟩ "a" = [2] := by decide
  have hbest : (ScoredVocab.ofEntries startEntries).bestPair 0 [1, 2] = .ok (F32.ofBits 0, some (3, 0)) := by
    decide
  have halone : encode ⟨ScoredVocab.ofEntries startEntries, 5⟩ "a" false = .ok [2] := by
    unfold encode
    rw [hids, if_neg Bool.false_ne_true, List.nil_append]
    exact mergeLoop_singleton _ 2
  have hbos : encode ⟨ScoredVocab.ofEntries startEntries, 5⟩ "a" true = .ok [3] := by
    unfold encode
    rw [hids, if_pos rfl, List.singleton_append]
    exact (ScoredVocab.mergeLoop_of_step ⟨_, _, _, hbest, by decide, rfl⟩).trans (mergeLoop_singleton _ 3)
  refine ⟨halone, hbos, ?_⟩
  rintro ⟨ids, -, hids⟩
  rw [hbos] at hids
  cases hids

end Llama2cTokenizer

end VitniTensor
