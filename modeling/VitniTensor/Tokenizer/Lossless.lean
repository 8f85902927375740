import VitniTensor.Tokenizer.Cuts
import VitniTensor.Tokenizer.GgufBpe

/-!
# Encoding and decoding

The byte characters are distinct, every symbol of the merge loop spells a run of bytes of the
piece, and its entry in the vocabulary leads back to it. So what is decoded is the text.
-/

namespace VitniTensor

open Outcome Utf8 Neighbours

/-- `i as u32` forgets a multiple of `2 ^ 32`. -/
theorem toNat_ofNat_wrap {n k : Nat} (hn : n = 2 ^ 32) (hk : k < 256) : (UInt32.ofNat (n + k)).toNat = k := by
  rw [UInt32.toNat_ofNat', hn, Nat.add_mod_left, Nat.mod_eq_of_lt (Nat.lt_trans hk (by decide))]

namespace GgufBpe

/-! ### The byte characters are distinct -/

/-- The first loop: the direct bytes are set and marked. -/
theorem foldl_setDirect (l : List Nat) (s : Vector Char 256 × Vector Bool 256) {k : Nat} (hk : k < 256) :
    (l.foldl setDirect s).1[k] = (if k ∈ l then charOf k else s.1[k]) ∧
      (l.foldl setDirect s).2[k] = (if k ∈ l then true else s.2[k]) := by
  induction l generalizing s with
  | nil => simp
  | cons b l ih =>
    obtain ⟨htable, hused⟩ := ih (setDirect s b)
    rw [List.foldl_cons, htable, hused]
    unfold setDirect
    -- A later byte of the list writes the same value again.
    by_cases hl : k ∈ l
    · simp [hl]
    · rcases eq_or_ne b k with rfl | hb
      · simp [hl]
      · simp [hl, hb, hb.symm, Vector.getElem_setIfInBounds_ne]

/-- Whether the second loop numbers byte `b`. -/
def isSpare (used : Vector Bool 256) (b : Nat) : Bool :=
  !used[b]?.getD true

theorem foldl_setNext_count (used : Vector Bool 256) (l : List Nat) (s : Vector Char 256 × Nat) :
    (l.foldl (setNext used) s).2 = s.2 + l.countP (isSpare used) := by
  induction l generalizing s with
  | nil => rfl
  | cons b l ih =>
    rw [List.foldl_cons, ih, List.countP_cons]
    unfold setNext isSpare
    cases used[b]?.getD true with
    | false => simp; omega
    | true => simp

/-- The second loop leaves alone what it does not come to, and what is marked. -/
theorem foldl_setNext_of_not (used : Vector Bool 256) (l : List Nat) (s : Vector Char 256 × Nat) {k : Nat}
    (hk : k < 256) (h : k ∉ l ∨ isSpare used k = false) : (l.foldl (setNext used) s).1[k] = s.1[k] := by
  induction l generalizing s with
  | nil => rfl
  | cons b l ih =>
    rw [List.foldl_cons, ih _ (h.imp_left fun hl hmem => hl (List.mem_cons_of_mem b hmem))]
    unfold setNext
    -- A marked byte is skipped, a spare one writes its own cell.
    split
    next => rfl
    next hb =>
      have hne : b ≠ k := by
        rintro rfl
        rcases h with hl | hmarked
        · exact hl List.mem_cons_self
        · unfold isSpare at hmarked
          simp [hb] at hmarked
      exact Vector.getElem_setIfInBounds_ne hk hne

theorem range_split {b c : Nat} (h : b < c) :
    List.range c = List.range b ++ b :: (List.range (c - (b + 1))).map (b + 1 + ·) := by
  rw [← List.singleton_append, ← List.append_assoc, ← List.range_succ, ← List.range_add]
  congr
  omega

theorem setNext_of_spare {used : Vector Bool 256} {s : Vector Char 256 × Nat} {b : Nat} (h : isSpare used b = true) :
    setNext used s b = (s.1.setIfInBounds b (charOf (256 + s.2)), s.2 + 1) := by
  unfold isSpare at h
  unfold setNext
  rw [if_neg (by simpa using h)]

/-- The code point of byte `b`. -/
def code (b : Nat) : Nat :=
  if b ∈ direct then b else 256 + (List.range b).countP (· ∉ direct)

/-- The second loop, after a first one that has set and marked the direct bytes. -/
theorem setSpare_getElem {marked : Vector Char 256 × Vector Bool 256}
    (htable : ∀ k (hk : k < 256), k ∈ direct → marked.1[k] = charOf k)
    (hused : ∀ k < 256, isSpare marked.2 k = decide (k ∉ direct)) {b : Nat} (hb : b < 256) :
    (setSpare marked)[b] = charOf (code b) := by
  unfold setSpare code
  have hmarked := hused b hb
  by_cases hmem : b ∈ direct
  · rw [foldl_setNext_of_not _ _ _ hb (.inr (by rw [hmarked]; simp [hmem])), if_pos hmem]
    exact htable b hb hmem
  · -- the loop comes to `b` once, with the number of those before it
    rw [range_split hb, List.foldl_append, List.foldl_cons, foldl_setNext_of_not _ _ _ hb]
    · have hcount := foldl_setNext_count marked.2 (List.range b) (marked.1, 0)
      have hspares : (List.range b).countP (isSpare marked.2) = (List.range b).countP (· ∉ direct) := by
        apply List.countP_congr
        intro k hk
        rw [hused k (Nat.lt_trans (List.mem_range.mp hk) hb)]
      rw [setNext_of_spare (by rw [hmarked]; exact decide_eq_true hmem), if_neg hmem, ← hspares]
      dsimp only
      rw [Vector.getElem_setIfInBounds_self, hcount, Nat.zero_add]
    · refine .inl fun hlater => ?_
      obtain ⟨k, -, hk⟩ := List.mem_map.mp hlater
      omega

theorem bytesToUnicode_getElem {b : Nat} (hb : b < 256) : bytesToUnicode[b] = charOf (code b) := by
  unfold bytesToUnicode
  apply setSpare_getElem
  · intro k hk hmem
    rw [(foldl_setDirect direct _ hk).1, if_pos hmem]
  · intro k hk
    unfold isSpare
    rw [Vector.getElem?_eq_getElem hk, (foldl_setDirect direct _ hk).2]
    by_cases hmem : k ∈ direct <;> simp [hmem]

theorem code_lt {b : Nat} (hb : b < 256) : code b < 512 := by
  unfold code
  split
  next => omega
  next =>
    have hle := (List.countP_le_length (p := fun k => decide (k ∉ direct)) (l := List.range b))
    rw [List.length_range] at hle
    omega

theorem code_of_lt {b c : Nat} (hlt : b < c) (hc : c < 256) : code b ≠ code c := by
  unfold code
  have hcount : b ∉ direct → (List.range b).countP (· ∉ direct) < (List.range c).countP (· ∉ direct) := by
    intro hb
    rw [range_split hlt, List.countP_append, List.countP_cons_of_pos (by simpa using hb)]
    omega
  split
  next => split <;> omega
  next hb =>
    have hlt' := hcount hb
    split <;> omega

theorem charOf_injective {m n : Nat} (hm : m < 512) (hn : n < 512) (h : charOf m = charOf n) : m = n := by
  have hnat : ∀ k < 512, (charOf k).toNat = k := by
    intro k hk
    have hvalid : k.isValidChar := .inl (by omega)
    unfold charOf Char.ofNat
    rw [dif_pos hvalid]
    rfl
  rw [← hnat m hm, h, hnat n hn]

/-- No two bytes have one character. -/
theorem bytesToUnicode_injective : Function.Injective bytesToUnicode.get := by
  intro b c h
  have hcode : charOf (code b) = charOf (code c) := by
    rw [← bytesToUnicode_getElem b.isLt, ← bytesToUnicode_getElem c.isLt]
    exact h
  have heq := charOf_injective (code_lt b.isLt) (code_lt c.isLt) hcode
  rcases Nat.lt_trichotomy b.val c.val with hlt | hbc | hlt
  · exact absurd heq (code_of_lt hlt c.isLt)
  · exact Fin.ext hbc
  · exact absurd heq.symm (code_of_lt hlt b.isLt)

/-! ### The tables -/

/-- One turn of the vocabulary loop. -/
private def addToken (vocab : Std.TreeMap Symbol UInt32) (e : Symbol × Nat) : Std.TreeMap Symbol UInt32 :=
  vocab.insertIfNew e.1 (UInt32.ofNat e.2)

/-- The first entry of a token stays. -/
private theorem addToken_kept {vocab : Std.TreeMap Symbol UInt32} {s : Symbol} {id : UInt32} (h : vocab[s]? = some id)
    (e : Symbol × Nat) : (addToken vocab e)[s]? = some id := by
  unfold addToken
  rw [Std.TreeMap.getElem?_insertIfNew, if_neg, h]
  rintro ⟨hcmp, hnew⟩
  rw [Std.LawfulEqCmp.compare_eq_iff_eq.mp hcmp] at hnew
  exact hnew (Std.TreeMap.mem_iff_isSome_getElem?.mpr (by rw [h]; rfl))

private theorem foldl_addToken_kept {s : Symbol} {id : UInt32} (es : List (Symbol × Nat))
    {vocab : Std.TreeMap Symbol UInt32} (h : vocab[s]? = some id) : (es.foldl addToken vocab)[s]? = some id := by
  induction es generalizing vocab with
  | nil => exact h
  | cons e es ih => exact ih (addToken_kept h e)

private theorem foldl_addToken_new {s : Symbol} {l : List Symbol} (hs : s ∈ l) (k : Nat)
    {vocab : Std.TreeMap Symbol UInt32} (h : vocab[s]? = none) :
    ((l.zipIdx k).foldl addToken vocab)[s]? = some (UInt32.ofNat (k + l.idxOf s)) := by
  induction l generalizing k vocab with
  | nil => exact absurd hs List.not_mem_nil
  | cons t l ih =>
    rw [List.zipIdx_cons, List.foldl_cons]
    -- The first entry with this symbol is the one inserted; later ones find it taken.
    rcases eq_or_ne t s with rfl | hne
    · apply foldl_addToken_kept
      unfold addToken
      rw [Std.TreeMap.getElem?_insertIfNew, List.idxOf_cons_self, if_pos]
      · rfl
      · refine ⟨Std.LawfulEqCmp.compare_eq_iff_eq.mpr rfl, fun hmem => ?_⟩
        rw [Std.TreeMap.mem_iff_isSome_getElem?, h] at hmem
        cases hmem
    · have hmem := (List.mem_cons.mp hs).resolve_left hne.symm
      have hstill : (addToken vocab (t, k))[s]? = none := by
        unfold addToken
        rw [Std.TreeMap.getElem?_insertIfNew, if_neg, h]
        exact fun hcmp => hne (Std.LawfulEqCmp.compare_eq_iff_eq.mp hcmp.1)
      rw [ih hmem (k + 1) hstill, List.idxOf_cons_ne _ hne]
      congr 2
      omega

/-- A token has the index of its first occurrence as its id, modulo `2^32`. -/
theorem vocabOf_getElem? {toks : List Symbol} {s : Symbol} (h : s ∈ toks) :
    (vocabOf toks)[s]? = some (UInt32.ofNat (toks.idxOf s)) := by
  have hid := foldl_addToken_new h 0 (Std.TreeMap.getElem?_emptyc (α := Symbol) (β := UInt32))
  rwa [Nat.zero_add] at hid

private theorem foldl_addToken_none {s : Symbol} {l : List Symbol} (hs : s ∉ l) (k : Nat)
    {vocab : Std.TreeMap Symbol UInt32} (h : vocab[s]? = none) : ((l.zipIdx k).foldl addToken vocab)[s]? = none := by
  induction l generalizing k vocab with
  | nil => exact h
  | cons t l ih =>
    rw [List.zipIdx_cons, List.foldl_cons]
    apply ih (fun hmem => hs (List.mem_cons_of_mem t hmem)) (k + 1)
    unfold addToken
    rw [Std.TreeMap.getElem?_insertIfNew, if_neg, h]
    rintro ⟨hcmp, -⟩
    exact hs (List.mem_cons.mpr (.inl (Std.LawfulEqCmp.compare_eq_iff_eq.mp hcmp).symm))

/-- The tokens, and no other strings, have an id. -/
theorem vocabOf_eq_some {toks : List Symbol} {s : Symbol} {id : UInt32} :
    (vocabOf toks)[s]? = some id ↔ s ∈ toks ∧ id = UInt32.ofNat (toks.idxOf s) := by
  by_cases hs : s ∈ toks
  · rw [vocabOf_getElem? hs, Option.some_inj]
    exact ⟨fun h => ⟨hs, h.symm⟩, fun h => h.2.symm⟩
  · have hnone : (vocabOf toks)[s]? = none :=
      foldl_addToken_none hs 0 (Std.TreeMap.getElem?_emptyc (α := Symbol) (β := UInt32))
    rw [hnone]
    exact ⟨nofun, fun h => absurd h.1 hs⟩

theorem idxOf?_of_mem {toks : List Symbol} {s : Symbol} (h : s ∈ toks) : toks.idxOf? s = some (toks.idxOf s) :=
  List.findIdx?_eq_some_of_exists ⟨s, h, beq_self_eq_true s⟩

/-- One more token. -/
theorem vocabOf_concat (toks : List Symbol) (t : Symbol) :
    vocabOf (toks ++ [t]) = (vocabOf toks).insertIfNew t (UInt32.ofNat toks.length) := by
  unfold vocabOf
  rw [List.zipIdx_append, List.foldl_append, Nat.zero_add]
  rfl

/-- A pair with a rank is listed. -/
theorem mem_mergeRankOf {merges : List (List UInt8)} {pair : Symbol × Symbol} (h : pair ∈ mergeRankOf merges) :
    ∃ m ∈ merges, listedPair m = some pair := by
  -- A rank in the table was there before or comes from an entry of the list.
  have hfold : ∀ step : MergeRank → List UInt8 × Nat → MergeRank,
      (∀ ranks m, pair ∈ step ranks m → pair ∈ ranks ∨ listedPair m.1 = some pair) →
      ∀ (l : List (List UInt8)) (k : Nat) (ranks : MergeRank), pair ∈ (l.zipIdx k).foldl step ranks →
        pair ∈ ranks ∨ ∃ m ∈ l, listedPair m = some pair := by
    intro step hstep l
    induction l with
    | nil => exact fun k ranks h => .inl h
    | cons m l ih =>
      intro k ranks h
      rw [List.zipIdx_cons, List.foldl_cons] at h
      rcases ih _ _ h with hin | ⟨m', hm', hlisted⟩
      · rcases hstep ranks (m, k) hin with hbefore | hlisted
        · exact .inl hbefore
        · exact .inr ⟨m, List.mem_cons_self, hlisted⟩
      · exact .inr ⟨m', List.mem_cons_of_mem m hm', hlisted⟩
  refine (hfold _ (fun ranks m hin => ?_) merges 0 ∅ h).resolve_left Std.TreeMap.not_mem_emptyc
  -- The split of the entry, if there is one, is the only pair inserted.
  dsimp only at hin
  split at hin
  next p hp =>
    rcases Std.TreeMap.mem_insertIfNew.mp hin with hcmp | hin
    · rw [← comparePair_eq.mp hcmp]
      exact .inr hp
    · exact .inl hin
  next => exact .inl hin

/-! ### What a symbol spells -/

def byteChar (b : UInt8) : Char :=
  bytesToUnicode.get ⟨b.toNat, b.toNat_lt⟩

/-- The symbol that stands for these bytes. -/
def spell (bs : List UInt8) : Symbol :=
  encode (bs.map byteChar)

@[simp] theorem spell_append (bs cs : List UInt8) : spell (bs ++ cs) = spell bs ++ spell cs := by
  unfold spell
  rw [List.map_append, encode_append]

theorem mergeAt_append (pre : List Symbol) (a b : Symbol) (post : List Symbol) :
    mergeAt (pre ++ a :: b :: post) pre.length = pre ++ (a ++ b) :: post := by
  change replaceAt _ _ _ = _
  simp [List.getD]

theorem mem_mergeAt {symbols : List Symbol} {i : Nat} {s : Symbol} (h : s ∈ mergeAt symbols i) :
    s ∈ symbols ∨ s = symbols.getD i [] ++ symbols.getD (i + 1) [] := by
  unfold mergeAt at h
  exact List.mem_or_eq_of_mem_set (List.mem_of_mem_eraseIdx h)

/-- The symbols spell the parts, and all of them are entries that `p` accepts. -/
structure Spells (p : Symbol → Prop) (symbols : List Symbol) (bs : List UInt8) : Prop where
  parts : ∃ parts : List (List UInt8), symbols = parts.map spell ∧ parts.flatten = bs
  known : ∀ s ∈ symbols, p s

theorem Spells.mergeAt {p : Symbol → Prop} {symbols : List Symbol} {bs : List UInt8} (h : Spells p symbols bs)
    {i : Nat} (hi : i + 1 < symbols.length) (hmerged : p (symbols.getD i [] ++ symbols.getD (i + 1) [])) :
    Spells p (mergeAt symbols i) bs := by
  -- Merging joins two neighbouring parts; the bytes spelled stay the same.
  obtain ⟨parts, rfl, rfl⟩ := h.parts
  rw [List.length_map] at hi
  obtain ⟨pre, a, b, post, rfl, rfl⟩ := exists_neighbours hi
  have hlength : pre.length = (pre.map spell).length := by rw [List.length_map]
  have hmerge : GgufBpe.mergeAt ((pre ++ a :: b :: post).map spell) pre.length =
      (pre ++ (a ++ b) :: post).map spell := by
    rw [List.map_append, List.map_cons, List.map_cons, hlength, mergeAt_append, List.map_append, List.map_cons,
      spell_append]
  refine ⟨⟨pre ++ (a ++ b) :: post, hmerge, by simp⟩, fun s hs => ?_⟩
  rcases mem_mergeAt hs with hold | rfl
  · exact h.known s hold
  · exact hmerged

/-- The merge loop, where `p` holds of the concatenation of every pair with a rank. -/
theorem Spells.bpe {p : Symbol → Prop} {mergeRank : MergeRank} (hpairs : ∀ pair ∈ mergeRank, p (pair.1 ++ pair.2))
    {symbols : List Symbol} {bs : List UInt8} (h : Spells p symbols bs) : Spells p (bpe mergeRank symbols) bs := by
  -- Along the recursion of `bpe`: it ends, or merges the best pair and goes on.
  induction symbols using GgufBpe.bpe.induct mergeRank with
  | case1 symbols i hbest ih =>
    obtain ⟨hi, hranked⟩ := bestPair_spec hbest
    rw [GgufBpe.bpe]
    split
    next j hj =>
      cases hbest.symm.trans hj
      exact ih (h.mergeAt hi (hpairs _ hranked))
    next hnone => cases hbest.symm.trans hnone
  | case2 symbols hbest =>
    rw [GgufBpe.bpe]
    split
    next j hj => cases hbest.symm.trans hj
    next => exact h

theorem bpe_singleton (mergeRank : MergeRank) (s : Symbol) : bpe mergeRank [s] = [s] := by
  have hbest : bestPair mergeRank [s] = none := rfl
  rw [GgufBpe.bpe]
  split
  next j hj => cases hbest.symm.trans hj
  next => rfl

end GgufBpe

open GgufBpe

/-- The vocabulary has `s`, with an id that `u32` holds. -/
def Listed (toks : List Symbol) (s : Symbol) : Prop :=
  toks.idxOf s < toks.length ∧ toks.idxOf s < 2 ^ 32

namespace GgufBpeTokenizer

variable (toks : List Symbol) (merges : List (List UInt8))

@[simp] theorem byteEncoder_ofLists : (ofLists toks merges).byteEncoder = bytesToUnicode := rfl

theorem byteSymbol_eq (b : UInt8) : (ofLists toks merges).byteSymbol b = spell [b] := by
  unfold byteSymbol spell byteChar
  rw [byteEncoder_ofLists, List.map_singleton, encode_cons, encode_nil, List.append_nil]

theorem rev_getElem? (b : UInt8) : (ofLists toks merges).rev[byteChar b]? = some b := by
  -- Byte by byte; a later byte has another character, so it does not overwrite.
  have hfold : ∀ (l : List (Fin 256)) (m : Std.TreeMap Char UInt8) (c : Fin 256),
      c ∈ l ∨ m[bytesToUnicode.get c]? = some (UInt8.ofNat c.val) →
      (l.foldl (fun rev b => rev.insert (bytesToUnicode.get b) (UInt8.ofNat b.val)) m)[bytesToUnicode.get c]? =
        some (UInt8.ofNat c.val) := by
    intro l
    induction l with
    | nil => exact fun m c h => h.resolve_left List.not_mem_nil
    | cons d l ih =>
      intro m c h
      rw [List.foldl_cons]
      apply ih
      rw [Std.TreeMap.getElem?_insert]
      by_cases hcd : d = c
      · subst hcd
        exact .inr (if_pos (Std.LawfulEqCmp.compare_eq_iff_eq.mpr rfl))
      · have hne : compare (bytesToUnicode.get d) (bytesToUnicode.get c) ≠ .eq := fun hcmp =>
          hcd (bytesToUnicode_injective (Std.LawfulEqCmp.compare_eq_iff_eq.mp hcmp))
        rw [if_neg hne]
        exact h.imp_left fun hmem => (List.mem_cons.mp hmem).resolve_left (Ne.symm hcd)
  have hrev := hfold (List.finRange 256) ∅ ⟨b.toNat, b.toNat_lt⟩ (.inl (List.mem_finRange _))
  rw [UInt8.ofNat_toNat] at hrev
  unfold byteChar rev
  rw [byteEncoder_ofLists]
  exact hrev

/-- What is spelled is read back. -/
theorem unspell_spell (bs : List UInt8) : (ofLists toks merges).unspell (spell bs) = bs := by
  have hutf8 : String.ofBytes? (spell bs) = some (String.ofList (bs.map byteChar)) := by
    have hstring := String.ofBytes?_asBytes (String.ofList (bs.map byteChar))
    rwa [asBytes_eq, String.toList_ofList] at hstring
  unfold unspell
  rw [hutf8]
  dsimp only
  rw [String.toList_ofList, List.filterMap_map]
  have hsome : ((fun c => (ofLists toks merges).rev[c]?) ∘ byteChar) = some := by
    funext b
    rw [Function.comp_apply]
    exact rev_getElem? toks merges b
  rw [hsome, List.filterMap_some]

/-- The bytes that `decode` reads from the entry of an id. -/
def bytesOf (t : GgufBpeTokenizer) (id : UInt32) : List UInt8 :=
  match t.idToTok[id.toNat]? with
  | some tok => t.unspell tok
  | none => []

/-- A symbol has an id, which leads back to its bytes. -/
theorem bytesOf_id {bs : List UInt8} (h : Listed toks (spell bs)) :
    ∃ id, (ofLists toks merges).vocab[spell bs]? = some id ∧ (ofLists toks merges).bytesOf id = bs := by
  obtain ⟨hin, hsmall⟩ := h
  refine ⟨UInt32.ofNat (toks.idxOf (spell bs)), vocabOf_getElem? (List.idxOf_lt_length_iff.mp hin), ?_⟩
  have hid : (UInt32.ofNat (toks.idxOf (spell bs))).toNat = toks.idxOf (spell bs) :=
    UInt32.toNat_ofNat_of_lt' hsmall
  have hentry : (ofLists toks merges).idToTok[toks.idxOf (spell bs)]? = some (spell bs) :=
    List.getElem?_idxOf (List.idxOf_lt_length_iff.mp hin)
  unfold bytesOf
  rw [hid, hentry]
  exact unspell_spell toks merges bs

/-- The ids of symbols that spell some bytes lead back to these. -/
theorem bytesOf_symbols {symbols : List Symbol} {bs : List UInt8} (h : Spells (Listed toks) symbols bs) :
    (symbols.filterMap ((ofLists toks merges).vocab[·]?)).flatMap (ofLists toks merges).bytesOf = bs := by
  obtain ⟨⟨parts, rfl, rfl⟩, hknown⟩ := h
  induction parts with
  | nil => rfl
  | cons part parts ih =>
    rw [List.map_cons] at hknown
    obtain ⟨hpart, hrest⟩ := List.forall_mem_cons.mp hknown
    obtain ⟨id, hid, hbytes⟩ := bytesOf_id toks merges hpart
    rw [List.map_cons, List.filterMap_cons, hid]
    dsimp only
    rw [List.flatMap_cons, hbytes, ih hrest, List.flatten_cons]

variable {toks merges}

theorem bytesOf_encodePiece (hbytes : ∀ b, Listed toks ((ofLists toks merges).byteSymbol b))
    (hpairs : ∀ m ∈ merges, ∀ pair, listedPair m = some pair → Listed toks (pair.1 ++ pair.2)) (piece : String) :
    ((ofLists toks merges).encodePiece piece).flatMap (ofLists toks merges).bytesOf = piece.asBytes := by
  apply bytesOf_symbols
  apply Spells.bpe
  -- Every merged pair is in the table, so its join is an entry of the vocabulary.
  · intro pair hranked
    obtain ⟨m, hm, hlisted⟩ := mem_mergeRankOf hranked
    exact hpairs m hm pair hlisted
  -- At the start, each byte of the piece is a symbol of its own.
  · refine ⟨⟨piece.asBytes.map fun b => [b], ?_, ?_⟩, fun s hs => ?_⟩
    · rw [List.map_map]
      apply List.map_congr_left
      intro b _
      rw [Function.comp_apply, byteSymbol_eq]
    · rw [← List.flatMap_def, List.flatMap_singleton']
    · obtain ⟨b, -, rfl⟩ := List.mem_map.mp hs
      exact hbytes b

/-- The ids of the pieces of a text decode to it. -/
theorem decode_pieces (hbytes : ∀ b, Listed toks ((ofLists toks merges).byteSymbol b))
    (hpairs : ∀ m ∈ merges, ∀ pair, listedPair m = some pair → Listed toks (pair.1 ++ pair.2)) {text : String}
    {pieces : List String} (h : pretokenize text = .ok pieces) :
    (ofLists toks merges).decode (pieces.flatMap (ofLists toks merges).encodePiece) = text := by
  -- Piece by piece, the symbols spell the bytes that were cut out of the text.
  have hdecoded : (pieces.flatMap (ofLists toks merges).encodePiece).flatMap (ofLists toks merges).bytesOf =
      text.asBytes := by
    rw [List.flatMap_assoc, ← Pretokenize.flatMap_pretokenize h]
    apply List.flatMap_congr
    intro piece _
    exact bytesOf_encodePiece hbytes hpairs piece
  calc (ofLists toks merges).decode (pieces.flatMap (ofLists toks merges).encodePiece)
      = fromUtf8Lossy ((pieces.flatMap (ofLists toks merges).encodePiece).flatMap (ofLists toks merges).bytesOf) :=
        rfl
    _ = text := by rw [hdecoded, fromUtf8Lossy_asBytes]

theorem encode_pieces (t : GgufBpeTokenizer) {text : String} {pieces : List String}
    (h : pretokenize text = .ok pieces) : t.encode text = .ok (pieces.flatMap t.encodePiece) := by
  unfold encode
  rw [h]
  rfl

/-- **Byte-level BPE is lossless**: where the byte characters and the concatenations of the merge
pairs have entries, the ids of a text decode to it. -/
theorem decode_encode (hbytes : ∀ b, Listed toks ((ofLists toks merges).byteSymbol b))
    (hpairs : ∀ m ∈ merges, ∀ pair, listedPair m = some pair → Listed toks (pair.1 ++ pair.2)) {text : String}
    {pieces : List String} (h : pretokenize text = .ok pieces) :
    ∃ ids, (ofLists toks merges).encode text = .ok ids ∧ (ofLists toks merges).decode ids = text :=
  ⟨_, encode_pieces _ h, decode_pieces hbytes hpairs h⟩

/-- The symbols of all bytes. -/
def byteTokens : List Symbol :=
  (List.range 256).map fun b => spell [UInt8.ofNat b]

theorem mem_byteTokens (b : UInt8) : spell [b] ∈ byteTokens := by
  unfold byteTokens
  refine List.mem_map.mpr ⟨b.toNat, List.mem_range.mpr b.toNat_lt, ?_⟩
  rw [UInt8.ofNat_toNat]

private theorem listed_of_mem {toks : List Symbol} {s : Symbol} (h : s ∈ toks) (hsmall : toks.length ≤ 2 ^ 32) :
    Listed toks s :=
  ⟨List.idxOf_lt_length_of_mem h, Nat.lt_of_lt_of_le (List.idxOf_lt_length_of_mem h) hsmall⟩

theorem pretokenize_ab : pretokenize "ab" = .ok ["ab"] := by
  have hnext : Pretokenize.nextPiece "ab" 0 = .ok (some "ab", 2) := by decide
  unfold pretokenize
  rw [Pretokenize.pretokenizeFrom_of_ok (by decide) hnext, Pretokenize.pretokenizeFrom, if_neg (by decide)]
  rfl

theorem pretokenize_a : pretokenize "a" = .ok ["a"] := by
  have hnext : Pretokenize.nextPiece "a" 0 = .ok (some "a", 1) := by decide
  unfold pretokenize
  rw [Pretokenize.pretokenizeFrom_of_ok (by decide) hnext, Pretokenize.pretokenizeFrom, if_neg (by decide)]
  rfl

/-- The bytes, and one merge. -/
theorem decode_encode_ab :
    ∃ ids, (ofLists (byteTokens ++ ["ab".asBytes]) ["a b".asBytes]).encode "ab" = .ok ids ∧
      (ofLists (byteTokens ++ ["ab".asBytes]) ["a b".asBytes]).decode ids = "ab" := by
  have hsmall : (byteTokens ++ ["ab".asBytes]).length ≤ 2 ^ 32 := by
    unfold byteTokens
    rw [List.length_append, List.length_map, List.length_range]
    decide
  refine decode_encode (fun b => ?_) (fun m hm pair hpair => ?_) pretokenize_ab
  · rw [byteSymbol_eq]
    exact listed_of_mem (List.mem_append_left _ (mem_byteTokens b)) hsmall
  · cases List.mem_singleton.mp hm
    cases hpair.symm.trans (show listedPair "a b".asBytes = some ("a".asBytes, "b".asBytes) by decide)
    exact listed_of_mem (List.mem_append_right _ List.mem_cons_self) hsmall

/-- Behind `n` tokens that spell nothing, the entry of a byte has an id above `n`. -/
theorem vocab_behind (n : Nat) (b : UInt8) :
    (ofLists (List.replicate n [] ++ byteTokens) []).vocab[spell [b]]? =
      some (UInt32.ofNat (n + byteTokens.idxOf (spell [b]))) := by
  have hnot : spell [b] ∉ List.replicate n ([] : Symbol) := by
    intro hmem
    have hnil := List.eq_of_mem_replicate hmem
    unfold spell at hnil
    rw [List.map_singleton, encode_cons, encode_nil, List.append_nil] at hnil
    exact utf8EncodeChar_ne_nil _ hnil
  have hid := vocabOf_getElem? (List.mem_append_right (List.replicate n []) (mem_byteTokens b))
  rwa [List.idxOf_append_of_notMem hnot, List.length_replicate] at hid

/-- There, it leads to one of them. -/
theorem encodePiece_wraps {n : Nat} (hn : n = 2 ^ 32) :
    ∃ id, (ofLists (List.replicate n [] ++ byteTokens) []).encodePiece "a" = [id] ∧
      (ofLists (List.replicate n [] ++ byteTokens) []).bytesOf id = [] := by
  -- The byte's token is one of the last 256.
  have hk : byteTokens.idxOf (spell [0x61]) < 256 := by
    have hlt := List.idxOf_lt_length_of_mem (mem_byteTokens 0x61)
    unfold byteTokens at hlt
    rwa [List.length_map, List.length_range] at hlt
  refine ⟨UInt32.ofNat (n + byteTokens.idxOf (spell [0x61])), ?_, ?_⟩
  · have hbyte : "a".asBytes = [0x61] := rfl
    unfold encodePiece
    rw [hbyte, List.map_singleton, byteSymbol_eq, bpe_singleton, List.filterMap_cons, vocab_behind]
    rfl
  -- Its index wraps to a small one, whose entry is empty.
  · have hid : (UInt32.ofNat (n + byteTokens.idxOf (spell [0x61]))).toNat = byteTokens.idxOf (spell [0x61]) :=
      toNat_ofNat_wrap hn hk
    have hentry : (List.replicate n [] ++ byteTokens)[byteTokens.idxOf (spell [0x61])]? = some (spell []) := by
      have hsmall : byteTokens.idxOf (spell [0x61]) < n := hn ▸ Nat.lt_trans hk (by decide)
      rw [List.getElem?_append_left (by rwa [List.length_replicate]), List.getElem?_replicate, if_pos hsmall]
      rfl
    unfold bytesOf
    rw [hid]
    dsimp only [ofLists]
    rw [hentry]
    exact unspell_spell _ [] []

/-- Without the bound on the ids the result fails: `i as u32` wraps. -/
theorem ids_wrap :
    ¬∀ (toks : List Symbol) (merges : List (List UInt8)) (text : String) (pieces : List String),
      (∀ b, (ofLists toks merges).byteSymbol b ∈ toks) →
      (∀ m ∈ merges, ∀ pair, listedPair m = some pair → pair.1 ++ pair.2 ∈ toks) →
      pretokenize text = .ok pieces →
      ∃ ids, (ofLists toks merges).encode text = .ok ids ∧ (ofLists toks merges).decode ids = text := by
  intro hclaim
  -- the number stays a variable, so that nothing is computed
  obtain ⟨n, hn⟩ : ∃ n : Nat, n = 2 ^ 32 := ⟨_, rfl⟩
  obtain ⟨ids, hids, htext⟩ := hclaim (List.replicate n [] ++ byteTokens) [] "a" ["a"]
    (fun b => by rw [byteSymbol_eq]; exact List.mem_append_right _ (mem_byteTokens b))
    (fun m hm => absurd hm List.not_mem_nil) pretokenize_a
  obtain ⟨id, hpiece, hnone⟩ := encodePiece_wraps hn
  unfold encode at hids
  rw [pretokenize_a, ok_bind, List.flatMap_singleton, hpiece] at hids
  cases hids
  have hdecoded : (ofLists (List.replicate n [] ++ byteTokens) []).decode [id] = "" := by
    have hempty := fromUtf8Lossy_asBytes ""
    have hbytes : [id].flatMap (ofLists (List.replicate n [] ++ byteTokens) []).bytesOf = "".asBytes := by
      rw [List.flatMap_singleton, hnone]
      rfl
    rwa [← hbytes] at hempty
  rw [hdecoded] at htext
  exact absurd htext (by decide)

end GgufBpeTokenizer

end VitniTensor
