import VitniTensor.Tokenizer.Llama2c

/-!
# What llama2.c encoding does

Every tokenizer that is read from a blob is a vocabulary with its scores and its index. Encoding is
a run of merges from the single bytes: each step takes the leftmost pair of the highest score, and
at the end no pair has a score above negative infinity. An entry is found by the first place of its
text, so that is the score which counts.
-/

namespace VitniTensor

open Outcome GgufBpe Neighbours

namespace ScoredVocab

/-! ### Merges in terms of the vocabulary -/

/-- Two tokens make `id`: the first entry that has their texts, one after the other. -/
structure Makes (v : ScoredVocab) (a b id : UInt32) (score : Binary32) : Prop where
  first : v.vocab.idxOf? (v.bytesAt a ++ v.bytesAt b) = some id.toNat
  scored : v.scores[id.toNat]? = some score

/-- The pair at `i` makes an entry of the highest score, and it is the leftmost of those. -/
structure LeftmostHighest (v : ScoredVocab) (tokens : List UInt32) (i : Nat) (id : UInt32) (score : Binary32) :
    Prop where
  made : ∃ a b, tokens[i]? = some a ∧ tokens[i + 1]? = some b ∧ v.Makes a b id score
  above : F32.lt F32.negInfinity score = true
  highest : ∀ (j : Nat) (a b id' : UInt32) (score' : Binary32), tokens[j]? = some a → tokens[j + 1]? = some b →
    v.Makes a b id' score' → ¬F32.lt score score'
  leftmost : ∀ (j : Nat) (a b id' : UInt32) (score' : Binary32), j < i → tokens[j]? = some a →
    tokens[j + 1]? = some b → v.Makes a b id' score' → ¬F32.le score score'

/-- One merge. -/
structure MergeStep (v : ScoredVocab) (tokens next : List UInt32) : Prop where
  merged : ∃ i id score, v.LeftmostHighest tokens i id score ∧ next = replaceAt tokens i id

/-- No pair of neighbours makes an entry with a score above negative infinity. -/
def Unmergeable (v : ScoredVocab) (tokens : List UInt32) : Prop :=
  ∀ (j : Nat) (a b id : UInt32) (score : Binary32), tokens[j]? = some a → tokens[j + 1]? = some b →
    v.Makes a b id score → ¬F32.lt F32.negInfinity score

variable {v : ScoredVocab}

theorem entryOf_eq_some (hwf : v.WellFormed) (hsmall : v.vocab.length ≤ 2 ^ 32) {a b id : UInt32} {score : Binary32} :
    v.entryOf a b = some (score, id) ↔ v.Makes a b id score := by
  constructor
  · intro h
    obtain ⟨hid, rfl⟩ := byBytes_of_entryOf h
    have hknown := hwf.byBytes hid
    have hmem := (vocabOf_eq_some.mp (hwf.indexed ▸ hid)).1
    refine ⟨?_, ?_⟩
    · rw [idxOf?_of_mem hmem, (hknown.2 hsmall).1]
    · exact getElem?_eq_getD (hwf.scored ▸ hknown.1) _
  · intro h
    have hmem : v.bytesAt a ++ v.bytesAt b ∈ v.vocab := by
      rw [← List.isSome_idxOf?, h.first]
      rfl
    have hplace := h.first
    rw [idxOf?_of_mem hmem] at hplace
    have hid : v.byBytes[v.bytesAt a ++ v.bytesAt b]? = some id := by
      rw [hwf.indexed, vocabOf_eq_some]
      refine ⟨hmem, ?_⟩
      rw [Option.some_inj.mp hplace, UInt32.ofNat_toNat]
    unfold entryOf
    rw [hid, Option.map_some, List.getD_eq_getElem?_getD, h.scored, Option.getD_some]

variable {tokens : List UInt32}

/-- A candidate is a pair that makes an entry. -/
theorem candAt_eq_some (hwf : v.WellFormed) (hsmall : v.vocab.length ≤ 2 ^ 32) {j : Nat} {a b id : UInt32}
    {score : Binary32} (ha : tokens[j]? = some a) (hb : tokens[j + 1]? = some b) (h : v.Makes a b id score) :
    v.candAt tokens j = some (score, id, j) := by
  unfold candAt
  rw [List.getD_eq_getElem?_getD, ha, List.getD_eq_getElem?_getD, hb, Option.getD_some, Option.getD_some,
    (entryOf_eq_some hwf hsmall).mpr h, Option.map_some]

theorem lt_length_of_neighbour {j : Nat} {b : UInt32} (hb : tokens[j + 1]? = some b) : j < tokens.length - 1 := by
  have hlt := (List.getElem?_eq_some_iff.mp hb).1
  omega

theorem leftmostHighest_of_firstBest (hwf : v.WellFormed) (hsmall : v.vocab.length ≤ 2 ^ 32) {i : Nat} {id : UInt32}
    {score : Binary32}
    (h : FirstBest Better (v.candAt tokens) F32.negInfinity 0 (tokens.length - 1) i score (id, i)) :
    v.LeftmostHighest tokens i id score where
  made := by
    have hhigh := h.high
    obtain ⟨hentry, -⟩ := entryOf_of_candAt h.here
    exact ⟨_, _, getElem?_eq_getD (by omega) 0, getElem?_eq_getD (by omega) 0, (entryOf_eq_some hwf hsmall).mp hentry⟩
  above := h.above
  highest j a b id' score' ha hb hmakes :=
    h.best j score' (id', j) (Nat.zero_le j) (lt_length_of_neighbour hb) (candAt_eq_some hwf hsmall ha hb hmakes)
  leftmost j a b id' score' hj ha hb hmakes hle := by
    have hcand := candAt_eq_some hwf hsmall ha hb hmakes
    -- a score that is not below the highest one is above negative infinity too
    obtain ⟨hn, hn', hle⟩ := (Binary32.le_iff_scaled score score').mp hle
    obtain ⟨hinf, -, habove⟩ := (Binary32.lt_iff_scaled F32.negInfinity score).mp h.above
    have habove' : Better score' F32.negInfinity :=
      (Binary32.lt_iff_scaled F32.negInfinity score').mpr ⟨hinf, hn', lt_of_lt_of_le habove hle⟩
    have hlt := h.first j score' (id', j) (Nat.zero_le j) hj hcand habove'
    exact absurd ((Binary32.lt_iff_scaled score' score).mp hlt).2.2 (not_lt_of_ge hle)

theorem Step.mergeStep (hwf : v.WellFormed) (hsmall : v.vocab.length ≤ 2 ^ 32) (hknown : v.Known tokens)
    {next : List UInt32} (h : Step v 0 tokens next) : v.MergeStep tokens next := by
  obtain ⟨score, id, i, hbest, -, rfl⟩ := h.merged
  exact ⟨i, id, score, leftmostHighest_of_firstBest hwf hsmall (firstBest_of_bestPair hwf hknown hbest), rfl⟩

theorem unmergeable_of_noneAbove (hwf : v.WellFormed) (hsmall : v.vocab.length ≤ 2 ^ 32)
    (h : NoneAbove Better (v.candAt tokens) F32.negInfinity 0 (tokens.length - 1)) : v.Unmergeable tokens :=
  fun j _ _ id score ha hb hmakes =>
    h j score (id, j) (Nat.zero_le j) (lt_length_of_neighbour hb) (candAt_eq_some hwf hsmall ha hb hmakes)

theorem run_mergeStep (hwf : v.WellFormed) (hsmall : v.vocab.length ≤ 2 ^ 32) {n : Nat} {out : List UInt32}
    (h : Run (Step v 0) n tokens out) (hknown : v.Known tokens) : Run v.MergeStep n tokens out := by
  induction h with
  | done s => exact .done s
  | more hfirst _ ih => exact .more (hfirst.mergeStep hwf hsmall hknown) (ih (hfirst.known hwf hknown))

end ScoredVocab

namespace Llama2cTokenizer

/-! ### Tokenizers that were read -/

theorem loop_entries {blob : List UInt8} {lo n : Nat} {s s' : ScoredVocab × Nat}
    (h : forFrom lo n (turn blob) s = .ok s') {entries : List (UInt32 × List UInt8)}
    (hentries : s.1 = ScoredVocab.ofEntries entries) (hlength : entries.length = lo) :
    ∃ entries', s'.1 = ScoredVocab.ofEntries entries' ∧ entries'.length = lo + n := by
  induction n generalizing lo s entries with
  | zero =>
    cases h
    exact ⟨entries, hentries, hlength⟩
  | succ n ih =>
    obtain ⟨s₁, hturn, hrest⟩ := bind_eq_ok.mp h
    obtain ⟨⟨score, bytes, p⟩, -, hpush⟩ := bind_eq_ok.mp hturn
    cases hpush
    have hnext : push s.1 lo score bytes = ScoredVocab.ofEntries (entries ++ [(score.bits, bytes)]) := by
      rw [hentries, ← hlength]
      exact push_ofEntries entries (score.bits, bytes)
    obtain ⟨entries', hs', hlength'⟩ := ih hrest hnext (by rw [List.length_append, List.length_singleton, hlength])
    exact ⟨entries', hs', by omega⟩

/-- What is read is a vocabulary with as many entries as were asked for. -/
theorem ofEntries_of_fromBlob {blob : List UInt8} {vocabSize : Nat} {t : Llama2cTokenizer}
    (h : fromBlob blob vocabSize = .ok t) :
    ∃ entries, t.toScoredVocab = ScoredVocab.ofEntries entries ∧ entries.length = vocabSize := by
  by_cases hshort : blob.length < 4
  · unfold fromBlob at h
    rw [if_pos hshort] at h
    cases h
  · by_cases hreserve : vocabSize * 24 < 2 ^ 63
    · rw [fromBlob_eq (Nat.not_lt.mp hshort) hreserve] at h
      obtain ⟨maxTokenLength, -, h⟩ := bind_eq_ok.mp h
      obtain ⟨s, hloop, h⟩ := bind_eq_ok.mp h
      cases h
      obtain ⟨entries, hs, hlength⟩ := loop_entries hloop rfl rfl
      exact ⟨entries, hs, by rw [hlength, Nat.zero_add]⟩
    · have hpanic : reserveStrings vocabSize = panic .capacityOverflow := if_neg hreserve
      unfold fromBlob at h
      rw [if_neg hshort, hpanic] at h
      obtain ⟨maxTokenLength, -, h⟩ := bind_eq_ok.mp h
      cases h

variable {blob : List UInt8} {vocabSize : Nat} {t : Llama2cTokenizer}

theorem wellFormed_of_fromBlob (h : fromBlob blob vocabSize = .ok t) :
    t.WellFormed ∧ t.vocab.length = vocabSize := by
  obtain ⟨entries, hentries, rfl⟩ := ofEntries_of_fromBlob h
  rw [hentries]
  exact ⟨ScoredVocab.wellFormed_ofEntries entries, List.length_map _⟩

theorem known_byteIds (hwf : t.WellFormed) (text : String) : t.Known (t.byteIds text) := by
  intro id hid
  obtain ⟨b, -, hb⟩ := List.mem_filterMap.mp hid
  exact (hwf.byBytes hb).1

/-- With an entry for every byte, there is one token for each byte of the text. -/
theorem map_bytesAt_byteIds (hwf : t.WellFormed) (hsmall : t.vocab.length ≤ 2 ^ 32)
    (hbytes : ∀ b : UInt8, [b] ∈ t.vocab) (text : String) :
    (t.byteIds text).map t.bytesAt = text.asBytes.map fun b => [b] := by
  unfold byteIds
  generalize text.asBytes = bytes
  induction bytes with
  | nil => rfl
  | cons b bytes ih =>
    have hid : t.byBytes[[b]]? = some (UInt32.ofNat (t.vocab.idxOf [b])) := by
      rw [hwf.indexed]
      exact vocabOf_getElem? (hbytes b)
    rw [List.filterMap_cons, hid]
    dsimp only
    rw [List.map_cons, List.map_cons, ih, ((hwf.byBytes hid).2 hsmall).2]

/-- **Greedy merging keeps the text and stops at a fixpoint**: encoding is a run of merges from one token
for each byte. It returns ids of entries whose texts are the text, and no pair of them can be merged. -/
theorem encode_greedy (h : fromBlob blob vocabSize = .ok t) (hids : vocabSize ≤ 2 ^ 32)
    (hbytes : ∀ b : UInt8, [b] ∈ t.vocab) (text : String) :
    ∃ n start out, start.map t.bytesAt = text.asBytes.map (fun b => [b]) ∧
      t.encode text false = .ok out ∧
      Run t.MergeStep n start out ∧
      (∀ id ∈ out, id.toNat < t.vocab.length) ∧
      out.flatMap t.bytesAt = text.asBytes ∧
      t.Unmergeable out := by
  obtain ⟨hwf, rfl⟩ := wellFormed_of_fromBlob h
  have hknown := known_byteIds hwf text
  have hstart := map_bytesAt_byteIds hwf hids hbytes text
  obtain ⟨n, out, hout, hrun, hknown', hnone⟩ := ScoredVocab.run_mergeLoop hwf 0 hknown
  refine ⟨n, t.byteIds text, out, hstart, hout, ScoredVocab.run_mergeStep hwf hids hrun hknown, hknown', ?_,
    ScoredVocab.unmergeable_of_noneAbove hwf hids hnone⟩
  have hkeeps := hrun.keeps
    (fun tokens => t.Known tokens ∧ tokens.flatMap t.bytesAt = (t.byteIds text).flatMap t.bytesAt)
    (fun _ _ hs hstep => ⟨hstep.known hwf hs.1, (hstep.flatMap_bytesAt hwf hids hs.1).trans hs.2⟩) ⟨hknown, rfl⟩
  rw [hkeeps.2, List.flatMap_def, hstart, ← List.flatMap_def, List.flatMap_singleton']

/-! ### Vocabularies of the bytes -/

/-- An entry for every byte, with score zero. -/
def byteEntries : List (UInt32 × List UInt8) :=
  (List.range 256).map fun b => (0, [UInt8.ofNat b])

theorem length_byteEntries : byteEntries.length = 256 := by
  unfold byteEntries
  rw [List.length_map, List.length_range]

theorem mem_byteEntries (b : UInt8) : [b] ∈ byteEntries.map Prod.snd := by
  unfold byteEntries
  rw [List.map_map]
  refine List.mem_map.mpr ⟨b.toNat, List.mem_range.mpr b.toNat_lt, ?_⟩
  rw [Function.comp_apply, UInt8.ofNat_toNat]

theorem length_of_mem_byteEntries {e : UInt32 × List UInt8} (he : e ∈ byteEntries) : e.2.length = 1 := by
  obtain ⟨b, -, rfl⟩ := List.mem_map.mp he
  rfl

theorem length_write_append (entries more : List (UInt32 × List UInt8)) :
    (write 2 (entries ++ more)).length = (write 2 entries).length + (more.map fun e => 8 + e.2.length).sum := by
  rw [length_write, length_write, List.map_append, List.sum_append, Nat.add_assoc]

theorem length_write_byteEntries : (write 2 byteEntries).length = 4 + 256 * 9 := by
  have hnine : byteEntries.map (fun e => 8 + e.2.length) = List.replicate 256 9 := by
    rw [← length_byteEntries]
    exact List.map_eq_replicate_iff.mpr fun e he => by rw [length_of_mem_byteEntries he]
  rw [length_write, hnine, List.sum_replicate_nat]

/-- The blob of the bytes and a few more entries is read. -/
theorem fromBlob_bytes (more : List (UInt32 × List UInt8)) (hmore : ∀ e ∈ more, e.2.length < 2 ^ 32)
    (hfew : more.length < 2 ^ 16) (hsum : (more.map fun e => 8 + e.2.length).sum < 2 ^ 62) :
    fromBlob (write 2 (byteEntries ++ more)) (byteEntries ++ more).length =
      .ok ⟨ScoredVocab.ofEntries (byteEntries ++ more), 2⟩ := by
  have hread := @fromBlob_write_ok 2 (byteEntries ++ more)
    (by
      intro e he
      rcases List.mem_append.mp he with hbyte | hlate
      · rw [length_of_mem_byteEntries hbyte]
        decide
      · exact hmore e hlate)
    (by rw [List.length_append, length_byteEntries]; omega) []
    (by rw [List.append_nil, length_write_append, length_write_byteEntries]; omega)
  rwa [List.append_nil] at hread

theorem hasBytes (more : List (UInt32 × List UInt8)) (b : UInt8) :
    [b] ∈ (ScoredVocab.ofEntries (byteEntries ++ more)).vocab := by
  change [b] ∈ (byteEntries ++ more).map Prod.snd
  rw [List.map_append]
  exact List.mem_append_left _ (mem_byteEntries b)

/-- The bytes, and one merge. -/
theorem encode_greedy_hi :
    ∃ n start out,
      start.map (ScoredVocab.ofEntries (byteEntries ++ [(0x40A00000, "hi".asBytes)])).bytesAt =
        "hi".asBytes.map (fun b => [b]) ∧
      encode ⟨ScoredVocab.ofEntries (byteEntries ++ [(0x40A00000, "hi".asBytes)]), 2⟩ "hi" false = .ok out ∧
      Run (ScoredVocab.ofEntries (byteEntries ++ [(0x40A00000, "hi".asBytes)])).MergeStep n start out ∧
      (∀ id ∈ out, id.toNat < (ScoredVocab.ofEntries (byteEntries ++ [(0x40A00000, "hi".asBytes)])).vocab.length) ∧
      out.flatMap (ScoredVocab.ofEntries (byteEntries ++ [(0x40A00000, "hi".asBytes)])).bytesAt = "hi".asBytes ∧
      (ScoredVocab.ofEntries (byteEntries ++ [(0x40A00000, "hi".asBytes)])).Unmergeable out := by
  apply encode_greedy (fromBlob_bytes [(0x40A00000, "hi".asBytes)] (by decide) (by decide) (by decide))
  · rw [List.length_append, length_byteEntries]
    decide
  · exact hasBytes _

/-- `"ab"` twice: first with negative infinity, and then with one. -/
def abTwice : List (UInt32 × List UInt8) :=
  [(0xFF800000, [0x61, 0x62]), (0x3F800000, [0x61, 0x62])]

theorem first_abTwice : (ScoredVocab.ofEntries (byteEntries ++ abTwice)).vocab.idxOf? [0x61, 0x62] = some 256 := by
  have hnot : [0x61, 0x62] ∉ byteEntries.map Prod.snd := by
    intro hmem
    obtain ⟨e, he, htext⟩ := List.mem_map.mp hmem
    have hlength := length_of_mem_byteEntries he
    rw [htext] at hlength
    exact absurd hlength (by decide)
  change ((byteEntries ++ abTwice).map Prod.snd).idxOf? [0x61, 0x62] = some 256
  rw [List.map_append, idxOf?_of_mem (List.mem_append_right _ (by decide)),
    List.idxOf_append_of_notMem hnot, List.length_map, length_byteEntries]
  rfl

theorem getElem?_abTwice (k : Nat) :
    (ScoredVocab.ofEntries (byteEntries ++ abTwice)).vocab[256 + k]? = (abTwice[k]?).map Prod.snd ∧
      (ScoredVocab.ofEntries (byteEntries ++ abTwice)).scores[256 + k]? =
        (abTwice[k]?).map fun e => F32.ofBits e.1 := by
  have hentry : (byteEntries ++ abTwice)[256 + k]? = abTwice[k]? := by
    rw [← length_byteEntries, List.getElem?_append_right (Nat.le_add_right _ k), Nat.add_sub_cancel_left]
  constructor
  · exact (List.getElem?_map ..).trans (congrArg _ hentry)
  · exact (List.getElem?_map ..).trans (congrArg _ hentry)

/-- The pair is not merged: its first entry is the one that counts. -/
theorem no_mergeStep_abTwice {tokens next : List UInt32}
    (htokens : tokens.map (ScoredVocab.ofEntries (byteEntries ++ abTwice)).bytesAt = [[0x61], [0x62]]) :
    ¬(ScoredVocab.ofEntries (byteEntries ++ abTwice)).MergeStep tokens next := by
  rintro ⟨i, id, score, hhighest, -⟩
  obtain ⟨a, b, ha, hb, hmakes⟩ := hhighest.made
  have hi : i = 0 := by
    have hlength := congrArg List.length htokens
    have hlt := (List.getElem?_eq_some_iff.mp hb).1
    rw [List.length_map] at hlength
    simp only [List.length_cons, List.length_nil] at hlength
    omega
  subst hi
  have hat : ∀ (j : Nat) (c : UInt32), tokens[j]? = some c →
      ([[0x61], [0x62]] : List (List UInt8))[j]? = some ((ScoredVocab.ofEntries (byteEntries ++ abTwice)).bytesAt c) := by
    intro j c hc
    rw [← htokens, List.getElem?_map, hc]
    rfl
  have hfirst := hmakes.first
  rw [← Option.some_inj.mp (hat 0 a ha), ← Option.some_inj.mp (hat 1 b hb)] at hfirst
  have hid := Option.some_inj.mp (hfirst.symm.trans first_abTwice)
  have hscore := hmakes.scored
  rw [hid] at hscore
  cases hscore.symm.trans (getElem?_abTwice 0).2
  exact absurd hhighest.above (by decide)

/-- Behind `n` entries without text, the entry of a byte has an id above `n`. -/
theorem byteIds_behind (n maxTokenLength : Nat) :
    byteIds ⟨ScoredVocab.ofEntries (List.replicate n (0, []) ++ byteEntries), maxTokenLength⟩ "a" =
      [UInt32.ofNat (n + (byteEntries.map Prod.snd).idxOf [0x61])] := by
  have hnot : [0x61] ∉ List.replicate n ([] : List UInt8) := fun hmem =>
    absurd (List.eq_of_mem_replicate hmem) (List.cons_ne_nil _ _)
  have htexts : (List.replicate n ((0 : UInt32), ([] : List UInt8)) ++ byteEntries).map Prod.snd =
      List.replicate n [] ++ byteEntries.map Prod.snd := by
    rw [List.map_append, List.map_replicate]
  have hid : (ScoredVocab.ofEntries (List.replicate n (0, []) ++ byteEntries)).byBytes[([0x61] : List UInt8)]? =
      some (UInt32.ofNat (n + (byteEntries.map Prod.snd).idxOf [0x61])) := by
    change (vocabOf _)[_]? = _
    rw [htexts, vocabOf_getElem? (List.mem_append_right _ (mem_byteEntries 0x61)), List.idxOf_append_of_notMem hnot,
      List.length_replicate]
  have hbyte : "a".asBytes = [0x61] := rfl
  unfold byteIds
  rw [hbyte, List.filterMap_cons, hid]
  rfl

theorem length_write_behind (n : Nat) :
    (write 2 (List.replicate n (0, []) ++ byteEntries)).length = 4 + 256 * 9 + n * 8 := by
  have hbytes := length_write_byteEntries
  rw [length_write] at hbytes ⊢
  rw [List.map_append, List.map_replicate, List.sum_append, List.sum_replicate_nat]
  simp only [List.length_nil]
  omega

theorem bytesAt_behind {n : Nat} {id : UInt32} (h : id.toNat < n) :
    (ScoredVocab.ofEntries (List.replicate n (0, []) ++ byteEntries)).bytesAt id = [] := by
  change ((List.replicate n (0, []) ++ byteEntries).map Prod.snd).getD id.toNat [] = []
  rw [List.map_append, List.map_replicate, List.getD_eq_getElem?_getD,
    List.getElem?_append_left (by rwa [List.length_replicate]), List.getElem?_replicate, if_pos h]
  rfl

/-- One token is not merged. -/
theorem mergeLoop_singleton (v : ScoredVocab) (id : UInt32) : v.mergeLoop 0 [id] = .ok [id] :=
  ScoredVocab.mergeLoop_of_none rfl

/-- A later entry with the same text does not count, whatever its score, and past `2^32` entries the ids
lead to other texts. -/
theorem encode_greedy_limits :
    (¬∀ (blob : List UInt8) (vocabSize : Nat) (t : Llama2cTokenizer) (text : String),
      fromBlob blob vocabSize = .ok t → (∀ b : UInt8, [b] ∈ t.vocab) →
      ∃ out, t.encode text false = .ok out ∧
        ∀ (j k : Nat) (a b : UInt32) (score : Binary32), out[j]? = some a → out[j + 1]? = some b →
          t.vocab[k]? = some (t.bytesAt a ++ t.bytesAt b) → t.scores[k]? = some score →
          ¬F32.lt F32.negInfinity score) ∧
    ¬∀ (blob : List UInt8) (vocabSize : Nat) (t : Llama2cTokenizer) (text : String),
      fromBlob blob vocabSize = .ok t → (∀ b : UInt8, [b] ∈ t.vocab) →
      ∃ out, t.encode text false = .ok out ∧ out.flatMap t.bytesAt = text.asBytes := by
  constructor
  · intro hclaim
    have hread := fromBlob_bytes abTwice (by decide) (by decide) (by decide)
    have hbytes := hasBytes abTwice
    obtain ⟨out, hout, hnone⟩ := hclaim _ _ _ "ab" hread hbytes
    obtain ⟨n, start, out', hstart, hout', hrun, -⟩ :=
      encode_greedy hread (by rw [List.length_append, length_byteEntries]; decide) hbytes "ab"
    obtain rfl : out = out' := Except.ok.inj (hout.symm.trans hout')
    -- there is no step, so the two bytes stay
    cases hrun with
    | more hstep _ => exact no_mergeStep_abTwice hstart hstep
    | done =>
      obtain ⟨a, rest, rfl, ha, hrest⟩ := List.map_eq_cons_iff.mp hstart
      obtain ⟨b, rest, rfl, hb, hrest⟩ := List.map_eq_cons_iff.mp hrest
      have htexts : (ScoredVocab.ofEntries (byteEntries ++ abTwice)).bytesAt a ++
          (ScoredVocab.ofEntries (byteEntries ++ abTwice)).bytesAt b = [0x61, 0x62] := by
        rw [ha, hb]
        rfl
      apply hnone 0 257 a b ⟨0x3F800000⟩ rfl rfl
      · rw [htexts]
        exact (getElem?_abTwice 1).1
      · exact (getElem?_abTwice 1).2
      · decide
  · intro hclaim
    -- the number stays a variable, so that nothing is computed
    obtain ⟨n, hn⟩ : ∃ n : Nat, n = 2 ^ 32 := ⟨_, rfl⟩
    have hread := @fromBlob_write_ok 2 (List.replicate n (0, []) ++ byteEntries)
      (by
        intro e he
        rcases List.mem_append.mp he with hempty | hbyte
        · rw [List.eq_of_mem_replicate hempty]
          decide
        · rw [length_of_mem_byteEntries hbyte]
          decide)
      (by rw [List.length_append, List.length_replicate, length_byteEntries]; omega) []
      (by rw [List.append_nil, length_write_behind]; omega)
    rw [List.append_nil] at hread
    have hbytes : ∀ b : UInt8, [b] ∈ (ScoredVocab.ofEntries (List.replicate n (0, []) ++ byteEntries)).vocab := by
      intro b
      change [b] ∈ (List.replicate n (0, []) ++ byteEntries).map Prod.snd
      rw [List.map_append]
      exact List.mem_append_right _ (mem_byteEntries b)
    obtain ⟨out, hout, htext⟩ := hclaim _ _ _ "a" hread hbytes
    have hplace : (byteEntries.map Prod.snd).idxOf [0x61] < 256 := by
      rw [← length_byteEntries, ← List.length_map Prod.snd]
      exact List.idxOf_lt_length_of_mem (mem_byteEntries 0x61)
    have hid : (UInt32.ofNat (n + (byteEntries.map Prod.snd).idxOf [0x61])).toNat =
        (byteEntries.map Prod.snd).idxOf [0x61] :=
      toNat_ofNat_wrap hn hplace
    unfold encode at hout
    rw [byteIds_behind, if_neg Bool.false_ne_true, List.nil_append, mergeLoop_singleton] at hout
    cases hout
    rw [List.flatMap_singleton, bytesAt_behind (by omega)] at htext
    exact absurd htext (List.cons_ne_nil _ _).symm

end Llama2cTokenizer

end VitniTensor
