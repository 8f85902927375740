import Mathlib.Data.List.Nodup
import VitniTensor.Tokenizer.BosToken

/-!
# SentencePiece text and back

Every token stands for some bytes: its own text, or the byte that it escapes. The tokens of a text
stand for the normalized text at first, and merging keeps that as long as no escape is put together
from parts and no byte token is merged away. Decoding then only has to undo the marks.
-/

namespace VitniTensor

open Outcome Utf8 Neighbours GgufSpm
open GgufBpe (vocabOf vocabOf_eq_some vocabOf_getElem?)

namespace GgufSpmTokenizer

/-! ### The normalized text -/

/-- The characters of the normalized text. -/
def markedChars (text : String) : List Char :=
  '\u2581' :: text.toList.map fun ch => if ch = ' ' then '\u2581' else ch

theorem mark_eq : mark = String.utf8EncodeChar '\u2581' := rfl

theorem normalize_eq (text : String) : normalize text = Utf8.encode (markedChars text) := by
  have hchar : ∀ ch : Char, (if ch = ' ' then mark else String.utf8EncodeChar ch) =
      String.utf8EncodeChar (if ch = ' ' then '\u2581' else ch) := by
    intro ch
    split
    next => exact mark_eq
    next => rfl
  unfold normalize markedChars
  rw [encode_cons, Utf8.encode, List.flatMap_map, mark_eq]
  congr
  funext ch
  exact hchar ch

theorem textIds_eq (t : GgufSpmTokenizer) (text : String) : t.textIds text = (markedChars text).flatMap t.charIds := by
  have hstring : String.ofBytes? (normalize text) = some (String.ofList (markedChars text)) := by
    have hbytes := String.ofBytes?_asBytes (String.ofList (markedChars text))
    rwa [asBytes_eq, String.toList_ofList, ← normalize_eq] at hbytes
  unfold textIds
  dsimp only
  rw [hstring, Option.getD_some, String.toList_ofList]

/-- Undoing the marks gives the text back. -/
theorem stripSpace_unmark {text : String} (hmark : '\u2581' ∉ text.toList) :
    stripSpace (unmark (normalize text)) = text := by
  -- Marking turns spaces into U+2581, unmarking turns them back: what is left is the space in
  -- front.
  have hchars : (markedChars text).map (fun ch => if ch = '\u2581' then ' ' else ch) = ' ' :: text.toList := by
    unfold markedChars
    rw [List.map_cons, if_pos rfl, List.map_map, List.map_congr_left (g := id), List.map_id]
    intro ch hch
    have hne : ch ≠ '\u2581' := by
      rintro rfl
      exact hmark hch
    rw [Function.comp_apply, id]
    split
    next hspace => rw [if_pos rfl, hspace]
    next => rfl
  unfold unmark
  rw [normalize_eq, fromUtf8Lossy, lossyChars_encode, String.toList_ofList, hchars]
  unfold stripSpace
  rw [String.toList_ofList]
  exact String.ofList_toList

/-! ### What a token stands for -/

/-- The bytes that `decode` reads from a token. -/
def standsFor (t : GgufSpmTokenizer) (id : UInt32) : List UInt8 :=
  match escapedByte (t.bytesAt id) with
  | some b => [b]
  | none => t.bytesAt id

theorem length_of_escapedByte {v : List UInt8} {b : UInt8} (h : escapedByte v = some b) : v.length = 6 := by
  unfold escapedByte at h
  split at h
  next => rfl
  next => cases h

/-- Decoding joins what the tokens stand for. -/
theorem decode_eq {t : GgufSpmTokenizer} {tokens : List UInt32} (hknown : t.Known tokens) :
    t.decode tokens = .ok (stripSpace (unmark (tokens.flatMap t.standsFor))) := by
  -- Each known id decodes to the text it stands for, a byte escape to its byte.
  have hmap : tokens.mapM t.decodeToken = .ok (tokens.map t.standsFor) := by
    induction tokens with
    | nil => rfl
    | cons id tokens ih =>
      obtain ⟨hid, hrest⟩ := List.forall_mem_cons.mp hknown
      have hone : t.decodeToken id = .ok (t.standsFor id) := by
        unfold decodeToken standsFor
        rw [ScoredVocab.index_getD hid [], ok_bind]
        unfold ScoredVocab.bytesAt
        cases escapedByte (t.vocab.getD id.toNat []) <;> rfl
      rw [List.mapM_cons, hone, ok_bind, ih hrest]
      rfl
  unfold decode
  rw [hmap, ok_bind, ← List.flatMap_def]
  rfl

/-! ### Escapes that are not merged -/

/-- A byte of a character of the normalized text that has no entry. -/
def FallbackByte (vocab : List (List UInt8)) (text : String) (b : UInt8) : Prop :=
  ∃ ch ∈ markedChars text, String.utf8EncodeChar ch ∉ vocab ∧ b ∈ String.utf8EncodeChar ch

/-- No two entries make an escape that is spelled in the normalized text, and the escape of a byte without an
entry does not make an entry with another one. -/
structure EscapesStay (vocab : List (List UInt8)) (text : String) : Prop where
  made : ∀ u ∈ vocab, ∀ w ∈ vocab, u ≠ [] → w ≠ [] → u ++ w ∈ vocab → u ++ w <:+: normalize text →
    escapedByte (u ++ w) = none
  taken : ∀ u ∈ vocab, ∀ w ∈ vocab, u ≠ [] → w ≠ [] → u ++ w ∈ vocab → ∀ b, FallbackByte vocab text b →
    escapedByte u ≠ some b ∧ escapedByte w ≠ some b

/-- A token has a text, and an escape stands for a byte without an entry. -/
structure Sound (t : GgufSpmTokenizer) (text : String) (id : UInt32) : Prop where
  nonempty : t.bytesAt id ≠ []
  fallback : ∀ b, escapedByte (t.bytesAt id) = some b → FallbackByte t.vocab text b

/-- The tokens stand for the normalized text. -/
structure StandsForText (t : GgufSpmTokenizer) (text : String) (tokens : List UInt32) : Prop where
  known : t.Known tokens
  sound : ∀ id ∈ tokens, t.Sound text id
  bytes : tokens.flatMap t.standsFor = normalize text

variable {t : GgufSpmTokenizer} {text : String} {tokens : List UInt32}

theorem bytesAt_mem {id : UInt32} (h : id.toNat < t.vocab.length) : t.bytesAt id ∈ t.vocab :=
  List.mem_of_getElem? (getElem?_eq_getD h [])

theorem charIds_of_some {ch : Char} {id : UInt32} (h : t.byBytes[String.utf8EncodeChar ch]? = some id) :
    t.charIds ch = [id] := by
  unfold charIds
  dsimp only
  rw [h]

/-- A character without an entry, where all bytes have tokens. -/
theorem charIds_of_none {ch : Char} {bytes : List UInt8} {ids : List UInt32} (hbytes : String.utf8EncodeChar ch = bytes)
    (h : t.byBytes[bytes]? = none)
    (hids : bytes.map (fun byte => t.byteFallback.get ⟨byte.toNat, byte.toNat_lt⟩) = ids.map some) :
    t.charIds ch = ids := by
  unfold charIds
  dsimp only
  rw [hbytes, h]
  dsimp only
  have hfilter := congrArg (List.filterMap id) hids
  rw [List.filterMap_map, List.filterMap_map] at hfilter
  exact hfilter.trans List.filterMap_some

theorem standsFor_of_none {id : UInt32} (h : escapedByte (t.bytesAt id) = none) : t.standsFor id = t.bytesAt id := by
  unfold standsFor
  rw [h]

theorem infix_of_neighbours {i : Nat} (hi : i + 1 < tokens.length) :
    t.standsFor (tokens.getD i 0) ++ t.standsFor (tokens.getD (i + 1) 0) <:+: tokens.flatMap t.standsFor := by
  obtain ⟨pre, a, b, post, rfl, rfl⟩ := exists_neighbours hi
  refine ⟨pre.flatMap t.standsFor, post.flatMap t.standsFor, ?_⟩
  simp

/-- A step keeps what the tokens stand for. -/
theorem StandsForText.step (hwf : t.WellFormed) (hsmall : t.vocab.length ≤ 2 ^ 32) (hstay : EscapesStay t.vocab text)
    (h : t.StandsForText text tokens) {next : List UInt32} (hstep : ScoredVocab.Step t.toScoredVocab 0 tokens next) :
    t.StandsForText text next := by
  have hknown := hstep.known hwf h.known
  obtain ⟨score, id, i, -, hi, rfl, -, hbytes⟩ := hstep.cases hwf h.known
  have hi' : i < tokens.length := Nat.lt_of_succ_lt hi
  have hsound : ∀ {j : Nat}, j < tokens.length → t.Sound text (tokens.getD j 0) := fun hj =>
    h.sound _ (List.mem_of_getElem? (getElem?_eq_getD hj 0))
  have htext : t.bytesAt id = t.bytesAt (tokens.getD i 0) ++ t.bytesAt (tokens.getD (i + 1) 0) :=
    ((hwf.byBytes hbytes).2 hsmall).2
  have hentry : t.bytesAt (tokens.getD i 0) ++ t.bytesAt (tokens.getD (i + 1) 0) ∈ t.vocab :=
    (vocabOf_eq_some.mp (hwf.indexed ▸ hbytes)).1
  have hu := bytesAt_mem (h.known.getD hi')
  have hw := bytesAt_mem (h.known.getD hi)
  have htaken := hstay.taken _ hu _ hw (hsound hi').nonempty (hsound hi).nonempty hentry
  -- neither of the two is an escape, and so they are spelled in the text
  have hleft : escapedByte (t.bytesAt (tokens.getD i 0)) = none :=
    Option.eq_none_iff_forall_ne_some.mpr fun b hb => (htaken b ((hsound hi').fallback b hb)).1 hb
  have hright : escapedByte (t.bytesAt (tokens.getD (i + 1) 0)) = none :=
    Option.eq_none_iff_forall_ne_some.mpr fun b hb => (htaken b ((hsound hi).fallback b hb)).2 hb
  have hspelled := infix_of_neighbours (t := t) hi
  rw [standsFor_of_none hleft, standsFor_of_none hright, h.bytes] at hspelled
  have hnone := hstay.made _ hu _ hw (hsound hi').nonempty (hsound hi).nonempty hentry hspelled
  rw [← htext] at hnone
  refine ⟨hknown, ?_, ?_⟩
  · intro id' hid'
    rcases List.mem_or_eq_of_mem_set (List.mem_of_mem_eraseIdx hid') with hold | rfl
    · exact h.sound id' hold
    · refine ⟨?_, fun b hb => ?_⟩
      · rw [htext]
        exact fun hnil => (hsound hi').nonempty (List.append_eq_nil_iff.mp hnil).1
      · rw [hnone] at hb
        cases hb
  · rw [← h.bytes]
    apply flatMap_replaceAt t.standsFor hi (getElem?_eq_getD hi' 0) (getElem?_eq_getD hi 0)
    rw [standsFor_of_none hnone, standsFor_of_none hleft, standsFor_of_none hright, htext]

/-! ### The tokens of a text -/

/-- Every byte has an escape in the vocabulary. -/
def HasByteTokens (vocab : List (List UInt8)) : Prop :=
  ∀ b : UInt8, ∃ v ∈ vocab, escapedByte v = some b

section Initial

variable {vocab : List (List UInt8)} {scores : List Binary32} (hscores : scores.length = vocab.length)
  (hsmall : vocab.length ≤ 2 ^ 32) (hbytes : HasByteTokens vocab)

include hscores in
theorem wellFormed_ofLists : (ofLists vocab scores).WellFormed := ⟨hscores, rfl⟩

theorem escapedByte_utf8EncodeChar (ch : Char) : escapedByte (String.utf8EncodeChar ch) = none := by
  apply Option.eq_none_iff_forall_ne_some.mpr
  intro b hb
  have hsix := length_of_escapedByte hb
  have hfour := ch.utf8Size_le_four
  rw [String.length_utf8EncodeChar] at hsix
  omega

/-- The token of a byte. -/
theorem byteToken {b : UInt8} (hsmall : vocab.length ≤ 2 ^ 32) (hbytes : HasByteTokens vocab) :
    ∃ id, (ofLists vocab scores).byteFallback.get ⟨b.toNat, b.toNat_lt⟩ = some id ∧
      escapedByte ((ofLists vocab scores).bytesAt id) = some b := by
  obtain ⟨v, hv, hb⟩ := hbytes b
  obtain ⟨id, hid⟩ := Option.isSome_iff_exists.mp (byteFallbackOf_isSome hv hb)
  refine ⟨id, hid, ?_⟩
  obtain ⟨i, v', hi, hb', rfl⟩ := byteFallbackOf_eq_some hid
  have hlt := (List.getElem?_eq_some_iff.mp hi).1
  have hplace : (UInt32.ofNat i).toNat = i := UInt32.toNat_ofNat_of_lt' (Nat.lt_of_lt_of_le hlt hsmall)
  have htext : (ofLists vocab scores).bytesAt (UInt32.ofNat i) = v' := by
    change vocab.getD (UInt32.ofNat i).toNat [] = v'
    rw [hplace, List.getD_eq_getElem?_getD, hi, Option.getD_some]
  rw [htext, hb']

include hscores hsmall hbytes

/-- The tokens of one character. -/
theorem charIds_standFor {text : String} {ch : Char} (hch : ch ∈ markedChars text) :
    (∀ id ∈ (ofLists vocab scores).charIds ch, (ofLists vocab scores).Sound text id) ∧
      ((ofLists vocab scores).charIds ch).flatMap (ofLists vocab scores).standsFor = String.utf8EncodeChar ch := by
  have hwf := wellFormed_ofLists hscores
  unfold charIds
  dsimp only
  cases hentry : (ofLists vocab scores).byBytes[String.utf8EncodeChar ch]? with
  -- The character is in the vocabulary: one id, which no escape has as its text.
  | some id =>
    have htext := ((hwf.byBytes hentry).2 hsmall).2
    have hnone : escapedByte ((ofLists vocab scores).bytesAt id) = none := by
      rw [htext, escapedByte_utf8EncodeChar]
    dsimp only
    constructor
    · intro id' hid'
      rw [List.mem_singleton.mp hid']
      refine ⟨by rw [htext]; exact utf8EncodeChar_ne_nil ch, fun b hb => ?_⟩
      rw [hnone] at hb
      cases hb
    · rw [List.flatMap_singleton, standsFor_of_none hnone, htext]
  -- It is not: one id for each of its bytes, and every escape so used spells a missing
  -- character.
  | none =>
    have hout : String.utf8EncodeChar ch ∉ vocab := by
      intro hmem
      have hid := vocabOf_getElem? hmem
      change (vocabOf vocab)[_]? = none at hentry
      rw [hentry] at hid
      cases hid
    have hbyteSound : ∀ (b : UInt8) (id : UInt32), b ∈ String.utf8EncodeChar ch →
        escapedByte ((ofLists vocab scores).bytesAt id) = some b → (ofLists vocab scores).Sound text id := by
      intro b id hb hid
      refine ⟨fun hnil => ?_, fun b' hb' => ?_⟩
      · rw [hnil] at hid
        cases hid
      · rw [hid] at hb'
        cases hb'
        exact ⟨ch, hch, hout, hb⟩
    dsimp only
    generalize String.utf8EncodeChar ch = cb at hbyteSound
    induction cb with
    | nil => exact ⟨fun id hid => absurd hid List.not_mem_nil, rfl⟩
    | cons b cb ih =>
      obtain ⟨id, hid, hb⟩ := @byteToken vocab scores b hsmall hbytes
      obtain ⟨hsound, hjoin⟩ := ih fun b' id' hb' => hbyteSound b' id' (List.mem_cons_of_mem b hb')
      rw [List.filterMap_cons, hid]
      dsimp only
      constructor
      · exact List.forall_mem_cons.mpr ⟨hbyteSound b id List.mem_cons_self hb, hsound⟩
      · have hone : (ofLists vocab scores).standsFor id = [b] := by
          unfold standsFor
          rw [hb]
        rw [List.flatMap_cons, hone, hjoin]
        rfl

/-- The tokens of a text stand for it. -/
theorem standsForText_textIds (text : String) :
    (ofLists vocab scores).StandsForText text ((ofLists vocab scores).textIds text) := by
  have hwf := wellFormed_ofLists hscores
  have hchars := fun ch (hch : ch ∈ markedChars text) => charIds_standFor hscores hsmall hbytes hch
  rw [textIds_eq]
  refine ⟨fun id hid => ?_, fun id hid => ?_, ?_⟩
  · obtain ⟨ch, -, hid⟩ := List.mem_flatMap.mp hid
    exact known_charIds vocab scores hwf ch id hid
  · obtain ⟨ch, hch, hid⟩ := List.mem_flatMap.mp hid
    exact (hchars ch hch).1 id hid
  · rw [List.flatMap_assoc, normalize_eq]
    exact List.flatMap_congr fun ch hch => (hchars ch hch).2

/-- Where escapes are not merged, what the merges of a text end with stands for it. -/
theorem standsForText_merged {text : String} (hstay : EscapesStay vocab text) :
    ∃ ids, (ofLists vocab scores).encode text false = .ok ids ∧ (ofLists vocab scores).StandsForText text ids := by
  have hwf := wellFormed_ofLists hscores
  have hstart := standsForText_textIds hscores hsmall hbytes text
  obtain ⟨n, out, hout, hrun, -⟩ := ScoredVocab.run_mergeLoop hwf 0 hstart.known
  refine ⟨out, ?_, ?_⟩
  · rw [encode_false, hout]
  · exact hrun.keeps (fun tokens => (ofLists vocab scores).StandsForText text tokens)
      (fun _ _ hs hstep => hs.step hwf hsmall hstay hstep) hstart

omit hscores hsmall hbytes in
theorem StandsForText.decode {text : String} {ids : List UInt32} (hmark : '\u2581' ∉ text.toList)
    (h : (ofLists vocab scores).StandsForText text ids) : (ofLists vocab scores).decode ids = .ok text := by
  rw [decode_eq h.known, h.bytes, stripSpace_unmark hmark]

/-- **SentencePiece text and back**: where escapes are not merged, the ids of a text decode to it. -/
theorem decode_of_encode {text : String} (hmark : '\u2581' ∉ text.toList) (hstay : EscapesStay vocab text) :
    ∃ ids, (ofLists vocab scores).encode text false = .ok ids ∧ (ofLists vocab scores).decode ids = .ok text := by
  obtain ⟨ids, hids, hstands⟩ := standsForText_merged hscores hsmall hbytes hstay
  exact ⟨ids, hids, hstands.decode hmark⟩

end Initial

/-! ### Vocabularies of the byte tokens -/

def hexChar (n : Nat) : UInt8 :=
  if n < 10 then UInt8.ofNat (0x30 + n) else UInt8.ofNat (0x41 + (n - 10))

/-- `"<0xHH>"`. -/
def byteEscape (b : Nat) : List UInt8 :=
  [0x3C, 0x30, 0x78, hexChar (b / 16), hexChar (b % 16), 0x3E]

theorem escapedByte_byteEscape {b : Nat} (hb : b < 256) : escapedByte (byteEscape b) = some (UInt8.ofNat b) := by
  have hall : ∀ b < 256, escapedByte (byteEscape b) = some (UInt8.ofNat b) := by decide +kernel
  exact hall b hb

def byteEscapes : List (List UInt8) :=
  (List.range 256).map byteEscape

theorem length_byteEscapes : byteEscapes.length = 256 := by
  unfold byteEscapes
  rw [List.length_map, List.length_range]

theorem length_of_mem_byteEscapes {v : List UInt8} (hv : v ∈ byteEscapes) : v.length = 6 := by
  obtain ⟨b, -, rfl⟩ := List.mem_map.mp hv
  rfl

theorem nodup_byteEscapes : byteEscapes.Nodup := by
  apply List.Nodup.map_on _ List.nodup_range
  intro b hb c hc heq
  have hbyte := congrArg escapedByte heq
  rw [escapedByte_byteEscape (List.mem_range.mp hb), escapedByte_byteEscape (List.mem_range.mp hc)] at hbyte
  have hnat := congrArg UInt8.toNat (Option.some_inj.mp hbyte)
  rw [UInt8.toNat_ofNat_of_lt' (List.mem_range.mp hb), UInt8.toNat_ofNat_of_lt' (List.mem_range.mp hc)] at hnat
  exact hnat

theorem mem_byteEscapes (b : UInt8) : byteEscape b.toNat ∈ byteEscapes :=
  List.mem_map.mpr ⟨b.toNat, List.mem_range.mpr b.toNat_lt, rfl⟩

theorem getElem?_byteEscapes {i : Nat} {v : List UInt8} (h : byteEscapes[i]? = some v) : i < 256 ∧ v = byteEscape i := by
  unfold byteEscapes at h
  rw [List.getElem?_map] at h
  obtain ⟨k, hk, rfl⟩ := Option.map_eq_some_iff.mp h
  obtain ⟨hlt, rfl⟩ := List.getElem?_eq_some_iff.mp hk
  rw [List.length_range] at hlt
  rw [List.getElem_range]
  exact ⟨hlt, rfl⟩

theorem idxOf_byteEscapes (b : UInt8) : byteEscapes.idxOf (byteEscape b.toNat) = b.toNat := by
  have hmem := mem_byteEscapes b
  obtain ⟨hlt, heq⟩ := getElem?_byteEscapes (List.getElem?_idxOf hmem)
  have hbyte := congrArg escapedByte heq
  rw [escapedByte_byteEscape b.toNat_lt, escapedByte_byteEscape hlt] at hbyte
  have hnat := congrArg UInt8.toNat (Option.some_inj.mp hbyte)
  rw [UInt8.toNat_ofNat_of_lt' b.toNat_lt, UInt8.toNat_ofNat_of_lt' hlt] at hnat
  exact hnat.symm

section Front

variable (front : List (List UInt8)) (scores : List Binary32)

section Lookup

local instance lawful_bytes : LawfulBEq (List UInt8) := inferInstance

/-- The id of a text in a vocabulary of some entries and then the byte tokens. -/
def lookup (s : List UInt8) : Option UInt32 :=
  if s ∈ front then some (UInt32.ofNat (front.idxOf s))
  else match escapedByte s with
    | some b => if s = byteEscape b.toNat then some (UInt32.ofNat (front.length + b.toNat)) else none
    | none => none

end Lookup

theorem byBytes_front (s : List UInt8) : (ofLists (front ++ byteEscapes) scores).byBytes[s]? = lookup front s := by
  change (vocabOf (front ++ byteEscapes))[s]? = _
  unfold lookup
  -- Either the entry lies in front, or it is an escape behind it, or it is nowhere.
  by_cases hfront : s ∈ front
  · rw [if_pos hfront, vocabOf_getElem? (List.mem_append_left _ hfront), List.idxOf_append_of_mem hfront]
  · rw [if_neg hfront]
    by_cases hescape : s ∈ byteEscapes
    · obtain ⟨k, hk, rfl⟩ := List.mem_map.mp hescape
      have hbyte : (UInt8.ofNat k).toNat = k := UInt8.toNat_ofNat_of_lt' (List.mem_range.mp hk)
      have hplace := idxOf_byteEscapes (UInt8.ofNat k)
      rw [hbyte] at hplace
      rw [vocabOf_getElem? (List.mem_append_right _ hescape), List.idxOf_append_of_notMem hfront,
        escapedByte_byteEscape (List.mem_range.mp hk), hplace]
      dsimp only
      rw [hbyte, if_pos rfl]
    · have hnone : (vocabOf (front ++ byteEscapes))[s]? = none := by
        apply Option.eq_none_iff_forall_ne_some.mpr
        intro id hid
        exact (List.mem_append.mp (vocabOf_eq_some.mp hid).1).elim hfront hescape
      rw [hnone]
      split
      next b hb =>
        rw [if_neg]
        rintro rfl
        exact hescape (mem_byteEscapes b)
      next => rfl

variable {front}

/-- The token of a byte is where its escape is. -/
theorem byteFallback_front (hfront : ∀ v ∈ front, v.length ≠ 6) (b : UInt8) :
    (ofLists (front ++ byteEscapes) scores).byteFallback.get ⟨b.toNat, b.toNat_lt⟩ =
      some (UInt32.ofNat (front.length + b.toNat)) := by
  have hsome := byteFallbackOf_isSome (List.mem_append_right front (mem_byteEscapes b))
    (by rw [escapedByte_byteEscape b.toNat_lt, UInt8.ofNat_toNat])
  obtain ⟨id, hid⟩ := Option.isSome_iff_exists.mp hsome
  obtain ⟨i, v, hi, hb, rfl⟩ := byteFallbackOf_eq_some hid
  change (byteFallbackOf (front ++ byteEscapes)).get _ = _
  rw [hid]
  -- An entry in front has no escape's length, so the byte comes from the escapes behind.
  by_cases hlt : i < front.length
  · rw [List.getElem?_append_left hlt] at hi
    exact absurd (length_of_escapedByte hb) (hfront v (List.mem_of_getElem? hi))
  · obtain ⟨j, rfl⟩ := Nat.exists_eq_add_of_le (Nat.not_lt.mp hlt)
    rw [List.getElem?_append_right (Nat.le_add_right _ j), Nat.add_sub_cancel_left] at hi
    obtain ⟨hj, rfl⟩ := getElem?_byteEscapes hi
    rw [escapedByte_byteEscape hj] at hb
    rw [← Option.some_inj.mp hb, UInt8.toNat_ofNat_of_lt' hj]

theorem map_byteFallback_front (hfront : ∀ v ∈ front, v.length ≠ 6) (bytes : List UInt8) :
    bytes.map (fun byte => (ofLists (front ++ byteEscapes) scores).byteFallback.get ⟨byte.toNat, byte.toNat_lt⟩) =
      (bytes.map fun byte => UInt32.ofNat (front.length + byte.toNat)).map some := by
  rw [List.map_map]
  exact List.map_congr_left fun b _ => byteFallback_front scores hfront b

/-- A search there, by the lookup of texts. -/
theorem bestPair_front {tokens : List UInt32} (hscores : scores.length = (front ++ byteEscapes).length)
    (hknown : (ofLists (front ++ byteEscapes) scores).Known tokens) :
    (ofLists (front ++ byteEscapes) scores).bestPair 0 tokens =
      .ok (scan Better
        (fun i => (lookup front ((front ++ byteEscapes).getD (tokens.getD i 0).toNat [] ++
          (front ++ byteEscapes).getD (tokens.getD (i + 1) 0).toNat [])).map fun id =>
            (scores.getD id.toNat F32.negInfinity, id, i))
        F32.negInfinity 0 (tokens.length - 1)) := by
  have hcand : (ofLists (front ++ byteEscapes) scores).candAt tokens = fun i =>
      (lookup front ((front ++ byteEscapes).getD (tokens.getD i 0).toNat [] ++
        (front ++ byteEscapes).getD (tokens.getD (i + 1) 0).toNat [])).map fun id =>
          (scores.getD id.toNat F32.negInfinity, id, i) := by
    funext i
    unfold ScoredVocab.candAt ScoredVocab.entryOf
    rw [byBytes_front, Option.map_map]
    rfl
  rw [ScoredVocab.bestPair_eq_scan (wellFormed_ofLists hscores) hknown, hcand]

end Front

theorem hasByteTokens_of_subset {vocab : List (List UInt8)} (h : byteEscapes ⊆ vocab) : HasByteTokens vocab := by
  intro b
  refine ⟨byteEscape b.toNat, h (List.mem_map.mpr ⟨b.toNat, List.mem_range.mpr b.toNat_lt, rfl⟩), ?_⟩
  rw [escapedByte_byteEscape b.toNat_lt, UInt8.ofNat_toNat]

/-- Longer or shorter entries, and the byte tokens. -/
theorem nodup_append_byteEscapes {front : List (List UInt8)} (hnodup : front.Nodup) (hfront : ∀ v ∈ front, v.length ≠ 6) :
    (front ++ byteEscapes).Nodup := by
  apply hnodup.append nodup_byteEscapes
  intro v hv hescape
  exact hfront v hv (length_of_mem_byteEscapes hescape)

/-- Scores of zero for a vocabulary. -/
def zeroScores (vocab : List (List UInt8)) : List Binary32 :=
  vocab.map fun _ => F32.ofBits 0

theorem length_zeroScores (vocab : List (List UInt8)) : (zeroScores vocab).length = vocab.length :=
  List.length_map _

/-- The byte tokens, and one merge. -/
def abVocab : List (List UInt8) :=
  [[0x61], [0x62], [0x61, 0x62]] ++ byteEscapes

theorem escapesStay_abVocab (text : String) : EscapesStay abVocab text := by
  -- Entries have one, two or six bytes, and only two single bytes join to an entry.
  have hlengths : ∀ v ∈ abVocab, v ≠ [] → v.length = 6 ∨ v.length = 1 ∨ v.length = 2 := by
    intro v hv _
    rcases List.mem_append.mp hv with hfront | hescape
    · have hfew : ∀ v ∈ ([[0x61], [0x62], [0x61, 0x62]] : List (List UInt8)), v.length = 1 ∨ v.length = 2 := by decide
      exact .inr (hfew v hfront)
    · exact .inl (length_of_mem_byteEscapes hescape)
  have hshort : ∀ u ∈ abVocab, ∀ w ∈ abVocab, u ≠ [] → w ≠ [] → u ++ w ∈ abVocab → u.length = 1 ∧ w.length = 1 := by
    intro u hu w hw hune hwne hmade
    have hboth := hlengths _ hmade fun hnil => hune (List.append_eq_nil_iff.mp hnil).1
    have hulength := hlengths u hu hune
    have hwlength := hlengths w hw hwne
    rw [List.length_append] at hboth
    omega
  -- Whatever is not six bytes long is no escape.
  have hnone : ∀ v : List UInt8, v.length ≠ 6 → escapedByte v = none := fun v hv =>
    Option.eq_none_iff_forall_ne_some.mpr fun b hb => hv (length_of_escapedByte hb)
  constructor
  · intro u hu w hw hune hwne hmade _
    obtain ⟨hone, hone'⟩ := hshort u hu w hw hune hwne hmade
    apply hnone
    rw [List.length_append]
    omega
  · intro u hu w hw hune hwne hmade b _
    obtain ⟨hone, hone'⟩ := hshort u hu w hw hune hwne hmade
    rw [hnone u (by omega), hnone w (by omega)]
    exact ⟨nofun, nofun⟩

theorem decode_of_encode_ab :
    ∃ ids, (ofLists abVocab (zeroScores abVocab)).encode "ab" false = .ok ids ∧
      (ofLists abVocab (zeroScores abVocab)).decode ids = .ok "ab" := by
  apply decode_of_encode (length_zeroScores abVocab)
  · unfold abVocab
    rw [List.length_append, length_byteEscapes]
    decide
  · exact hasByteTokens_of_subset (List.subset_append_right _ _)
  · decide
  · exact escapesStay_abVocab "ab"

/-! ### Where text is lost -/

/-- The vocabulary has distinct entries and all byte tokens and the text has no mark, but it is lost. -/
structure Loses (vocab : List (List UInt8)) (scores : List Binary32) (text : String) : Prop where
  scored : scores.length = vocab.length
  distinct : vocab.Nodup
  byteTokens : HasByteTokens vocab
  unmarked : '\u2581' ∉ text.toList
  lost : ¬∃ ids, (ofLists vocab scores).encode text false = .ok ids ∧ (ofLists vocab scores).decode ids = .ok text

/-- The parts of `"<0x41>"` from left to right, and the two byte tokens of `é` in one entry. -/
def spelledFront : List (List UInt8) :=
  [mark, [0x3C], [0x30], [0x78], [0x34], [0x31], [0x3E], [0x3C, 0x30], [0x3C, 0x30, 0x78], [0x3C, 0x30, 0x78, 0x34],
    [0x3C, 0x30, 0x78, 0x34, 0x31], byteEscape 0xC3 ++ byteEscape 0xA9]

def spelledVocab : List (List UInt8) :=
  spelledFront ++ byteEscapes

def spelledTokenizer : GgufSpmTokenizer :=
  ofLists spelledVocab (zeroScores spelledVocab)

theorem length_spelledVocab : spelledVocab.length = 268 := by
  unfold spelledVocab
  rw [List.length_append, length_byteEscapes]
  rfl

theorem length_of_mem_spelledFront : ∀ v ∈ spelledFront, v.length ≠ 6 := by
  decide

/-- The candidates there, by the lookup of texts. -/
def spelledCand (tokens : List UInt32) (i : Nat) : Option (Binary32 × (UInt32 × Nat)) :=
  (lookup spelledFront (spelledVocab.getD (tokens.getD i 0).toNat [] ++
    spelledVocab.getD (tokens.getD (i + 1) 0).toNat [])).map fun id =>
      ((zeroScores spelledVocab).getD id.toNat F32.negInfinity, id, i)

theorem bestPair_spelled {tokens : List UInt32} (hknown : ∀ id ∈ tokens, id.toNat < 268) :
    spelledTokenizer.bestPair 0 tokens =
      .ok (scan Better (spelledCand tokens) F32.negInfinity 0 (tokens.length - 1)) := by
  apply bestPair_front (zeroScores spelledVocab) (length_zeroScores spelledVocab)
  intro id hid
  change id.toNat < spelledVocab.length
  rw [length_spelledVocab]
  exact hknown id hid

/-- One merge there. -/
theorem mergeLoop_spelled {tokens : List UInt32} (hknown : ∀ id ∈ tokens, id.toNat < 268) {score : Binary32} {id : UInt32}
    {i : Nat} (hscan : scan Better (spelledCand tokens) F32.negInfinity 0 (tokens.length - 1) = (score, some (id, i)))
    (hi : i + 1 < tokens.length) :
    spelledTokenizer.mergeLoop 0 tokens = spelledTokenizer.mergeLoop 0 (replaceAt tokens i id) :=
  ScoredVocab.mergeLoop_of_step ⟨score, id, i, by rw [bestPair_spelled hknown, hscan], hi, rfl⟩

theorem charIds_spelled {ch : Char} {i : Nat} (h : String.utf8EncodeChar ch ∈ spelledFront)
    (hi : spelledFront.idxOf (String.utf8EncodeChar ch) = i) : spelledTokenizer.charIds ch = [UInt32.ofNat i] := by
  apply charIds_of_some
  unfold spelledTokenizer spelledVocab
  rw [byBytes_front, lookup, if_pos h, hi]

/-- Where nothing is found, the tokens stay. -/
theorem mergeLoop_spelled_end {tokens : List UInt32} (hknown : ∀ id ∈ tokens, id.toNat < 268)
    (hscan : scan Better (spelledCand tokens) F32.negInfinity 0 (tokens.length - 1) = (F32.negInfinity, none)) :
    spelledTokenizer.mergeLoop 0 tokens = .ok tokens := by
  apply ScoredVocab.mergeLoop_of_none
  rw [bestPair_spelled hknown, hscan]

/-- The run on `"<0x41>"` puts the escape of `A` together. -/
theorem encode_spelled :
    spelledTokenizer.encode (String.ofList ['<', '0', 'x', '4', '1', '>']) false = .ok [0, 77] := by
  have hids : spelledTokenizer.textIds (String.ofList ['<', '0', 'x', '4', '1', '>']) = [0, 1, 2, 3, 4, 5, 6] := by
    -- The text is put in front of the space mark; every character of it is an entry.
    have hchars : markedChars (String.ofList ['<', '0', 'x', '4', '1', '>']) =
        ['\u2581', '<', '0', 'x', '4', '1', '>'] := by
      unfold markedChars
      rw [String.toList_ofList]
      decide
    rw [textIds_eq, hchars]
    simp only [List.flatMap_cons, List.flatMap_nil]
    rw [charIds_spelled (by decide) (i := 0) (by decide), charIds_spelled (by decide) (i := 1) (by decide),
      charIds_spelled (by decide) (i := 2) (by decide), charIds_spelled (by decide) (i := 3) (by decide),
      charIds_spelled (by decide) (i := 4) (by decide), charIds_spelled (by decide) (i := 5) (by decide),
      charIds_spelled (by decide) (i := 6) (by decide)]
    rfl
  rw [encode_false, hids]
  -- The six characters are merged from the left into the spelling of an escape.
  calc spelledTokenizer.mergeLoop 0 [0, 1, 2, 3, 4, 5, 6]
      = spelledTokenizer.mergeLoop 0 [0, 7, 3, 4, 5, 6] :=
        @mergeLoop_spelled _ (by simp) (F32.ofBits 0) 7 1 (by decide) (by decide)
    _ = spelledTokenizer.mergeLoop 0 [0, 8, 4, 5, 6] :=
        @mergeLoop_spelled _ (by simp) (F32.ofBits 0) 8 1 (by decide) (by decide)
    _ = spelledTokenizer.mergeLoop 0 [0, 9, 5, 6] :=
        @mergeLoop_spelled _ (by simp) (F32.ofBits 0) 9 1 (by decide) (by decide)
    _ = spelledTokenizer.mergeLoop 0 [0, 10, 6] :=
        @mergeLoop_spelled _ (by simp) (F32.ofBits 0) 10 1 (by decide) (by decide)
    _ = spelledTokenizer.mergeLoop 0 [0, 77] :=
        @mergeLoop_spelled _ (by simp) (F32.ofBits 0) 77 1 (by decide) (by decide)
    _ = .ok [0, 77] := mergeLoop_spelled_end (by simp) (by decide)

/-- The run on `"é"` merges the two byte tokens. -/
theorem encode_joined : spelledTokenizer.encode (String.ofList ['\u00E9']) false = .ok [0, 11] := by
  have hbytes : String.utf8EncodeChar '\u00E9' = [0xC3, 0xA9] := by decide
  have hids : spelledTokenizer.textIds (String.ofList ['\u00E9']) = [0, 207, 181] := by
    have hchars : markedChars (String.ofList ['\u00E9']) = ['\u2581', '\u00E9'] := by
      unfold markedChars
      rw [String.toList_ofList]
      decide
    -- The letter is no entry, so it is encoded by the escapes of its two bytes.
    have hnone : spelledTokenizer.byBytes[([0xC3, 0xA9] : List UInt8)]? = none := by
      unfold spelledTokenizer spelledVocab
      rw [byBytes_front]
      decide
    have hfallback := map_byteFallback_front (zeroScores spelledVocab) length_of_mem_spelledFront [0xC3, 0xA9]
    rw [textIds_eq, hchars]
    simp only [List.flatMap_cons, List.flatMap_nil]
    rw [charIds_spelled (by decide) (i := 0) (by decide), charIds_of_none hbytes hnone hfallback]
    rfl
  rw [encode_false, hids]
  -- The two escapes join: their texts together are an entry.
  calc spelledTokenizer.mergeLoop 0 [0, 207, 181]
      = spelledTokenizer.mergeLoop 0 [0, 11] :=
        @mergeLoop_spelled _ (by simp) (F32.ofBits 0) 11 1 (by decide) (by decide)
    _ = .ok [0, 11] := mergeLoop_spelled_end (by simp) (by decide)

/-- What the results decode to. -/
theorem decode_spelled {last : UInt32} (hlast : last.toNat < 268) {cs : List Char}
    (hbytes : [0, last].flatMap spelledTokenizer.standsFor = Utf8.encode ('\u2581' :: cs))
    (hplain : ∀ ch ∈ cs, ch ≠ ' ' ∧ ch ≠ '\u2581') :
    spelledTokenizer.decode [0, last] = .ok (String.ofList cs) := by
  have hknown : spelledTokenizer.Known [0, last] := by
    intro token htoken
    change token.toNat < spelledVocab.length
    rw [length_spelledVocab]
    rcases List.mem_cons.mp htoken with rfl | htoken
    · decide
    · rwa [List.mem_singleton.mp htoken]
  -- No character of the text is touched by the normalization.
  have hnormalize : normalize (String.ofList cs) = Utf8.encode ('\u2581' :: cs) := by
    rw [normalize_eq]
    unfold markedChars
    rw [String.toList_ofList, List.map_congr_left (g := id), List.map_id]
    exact fun ch hch => if_neg (hplain ch hch).1
  rw [decode_eq hknown, hbytes, ← hnormalize, stripSpace_unmark]
  rw [String.toList_ofList]
  exact fun hmark => (hplain _ hmark).2 rfl

theorem spelled_loses {text out : List Char} {ids : List UInt32}
    (hencode : spelledTokenizer.encode (String.ofList text) false = .ok ids)
    (hdecode : spelledTokenizer.decode ids = .ok (String.ofList out)) (hne : out ≠ text) (hmark : '\u2581' ∉ text) :
    Loses spelledVocab (zeroScores spelledVocab) (String.ofList text) where
  scored := length_zeroScores spelledVocab
  distinct := nodup_append_byteEscapes (by decide) length_of_mem_spelledFront
  byteTokens := hasByteTokens_of_subset (List.subset_append_right _ _)
  unmarked := by rwa [String.toList_ofList]
  lost := by
    -- Encoding and decoding are functions: whatever way back there is ends in `out`.
    rintro ⟨ids', hids', hback⟩
    cases hencode.symm.trans hids'
    have hstrings := congrArg String.toList (Except.ok.inj (hdecode.symm.trans hback))
    rw [String.toList_ofList, String.toList_ofList] at hstrings
    exact hne hstrings

/-! ### Past the ids -/

/-- The 32 bits of a number, the lowest one first. -/
def numberBits (k : Nat) : List Bool :=
  (List.range 32).map k.testBit

/-- The names of the first numbers: `a` for a bit that is off, `b` for one that is on. -/
def numberNames (n : Nat) : List (List UInt8) :=
  (List.range n).map fun k => (numberBits k).map fun bit => if bit then 0x62 else 0x61

/-- Scores that allow no merge. -/
def lowScores (vocab : List (List UInt8)) : List Binary32 :=
  vocab.map fun _ => F32.negInfinity

theorem length_of_mem_numberNames {n : Nat} {v : List UInt8} (hv : v ∈ numberNames n) : v.length = 32 := by
  obtain ⟨k, -, rfl⟩ := List.mem_map.mp hv
  unfold numberBits
  rw [List.length_map, List.length_map, List.length_range]

theorem length_numberNames_ne {n : Nat} : ∀ v ∈ numberNames n, v.length ≠ 6 := by
  intro v hv
  rw [length_of_mem_numberNames hv]
  decide

/-- Numbers of 32 bits have different names. -/
theorem nodup_numberNames {n : Nat} (hn : n ≤ 2 ^ 32) : (numberNames n).Nodup := by
  apply List.Nodup.map_on _ List.nodup_range
  intro j hj k hk heq
  have hsmall : ∀ i ∈ List.range n, i < 2 ^ 32 := fun i hi => Nat.lt_of_lt_of_le (List.mem_range.mp hi) hn
  have hletters : ∀ x y : Bool, (if x then (0x62 : UInt8) else 0x61) = (if y then 0x62 else 0x61) → x = y := by decide
  have hbits : numberBits j = numberBits k := List.map_injective_iff.mpr hletters heq
  apply Nat.eq_of_testBit_eq
  intro i
  by_cases hi : i < 32
  · exact List.map_inj_left.mp hbits i (List.mem_range.mpr hi)
  · have hbig : 2 ^ 32 ≤ 2 ^ i := Nat.pow_le_pow_right (by decide) (Nat.le_of_not_lt hi)
    rw [Nat.testBit_lt_two_pow (Nat.lt_of_lt_of_le (hsmall j hj) hbig),
      Nat.testBit_lt_two_pow (Nat.lt_of_lt_of_le (hsmall k hk) hbig)]

theorem encode_letters (bits : List Bool) :
    Utf8.encode (bits.map fun bit => if bit then 'b' else 'a') = bits.map fun bit => if bit then 0x62 else 0x61 := by
  induction bits with
  | nil => rfl
  | cons bit bits ih =>
    rw [List.map_cons, List.map_cons, encode_cons, ih]
    cases bit <;> rfl

/-- No pair has a score above negative infinity. -/
theorem mergeLoop_low {vocab : List (List UInt8)} {tokens : List UInt32}
    (hknown : (ofLists vocab (lowScores vocab)).Known tokens) :
    (ofLists vocab (lowScores vocab)).mergeLoop 0 tokens = .ok tokens := by
  have hwf : (ofLists vocab (lowScores vocab)).WellFormed := wellFormed_ofLists (List.length_map _)
  -- No score is above the lowest, so the scan for the best pair finds nothing.
  have hnone : NoneAbove Better ((ofLists vocab (lowScores vocab)).candAt tokens) F32.negInfinity 0
      (tokens.length - 1) := by
    intro j score c _ _ hcand habove
    obtain ⟨hentry, -⟩ := ScoredVocab.entryOf_of_candAt hcand
    obtain ⟨-, rfl⟩ := ScoredVocab.byBytes_of_entryOf hentry
    have hlow : (lowScores vocab).getD c.1.toNat F32.negInfinity = (F32.negInfinity : Binary32) := by
      unfold lowScores
      rw [List.getD_eq_getElem?_getD, List.getElem?_map]
      cases vocab[c.1.toNat]? <;> rfl
    change Better ((lowScores vocab).getD c.1.toNat F32.negInfinity) F32.negInfinity at habove
    rw [hlow] at habove
    exact ScoredVocab.score_contest.irrefl _ habove
  apply ScoredVocab.mergeLoop_of_none
  rw [ScoredVocab.bestPair_eq_scan hwf hknown, scan_of_noneAbove ScoredVocab.score_contest hnone]

theorem stripSpace_unmark_ne (more : List Char) : stripSpace (unmark (Utf8.encode ('a' :: more))) ≠ "" := by
  intro h
  unfold unmark at h
  rw [fromUtf8Lossy, lossyChars_encode, String.toList_ofList, List.map_cons, if_neg (by decide)] at h
  unfold stripSpace at h
  rw [String.toList_ofList] at h
  split at h
  next hspace => exact absurd (List.cons_eq_cons.mp hspace).1 (by decide)
  next =>
    have hchars := congrArg String.toList h
    rw [String.toList_ofList] at hchars
    exact absurd hchars (List.cons_ne_nil _ _)

/-- Behind `2^32` names, the ids of the byte tokens lead to names. -/
theorem numberNames_loses {n : Nat} (hn : n = 2 ^ 32) :
    Loses (numberNames n ++ byteEscapes) (lowScores (numberNames n ++ byteEscapes)) "" where
  scored := List.length_map _
  distinct := nodup_append_byteEscapes (nodup_numberNames (Nat.le_of_eq hn)) length_numberNames_ne
  byteTokens := hasByteTokens_of_subset (List.subset_append_right _ _)
  unmarked := List.not_mem_nil
  lost := by
    have hlength : (numberNames n).length = n := by
      unfold numberNames
      rw [List.length_map, List.length_range]
    -- The escape of byte `b` has index 2 ^ 32 + b, and its id wraps to `b`.
    have hid : ∀ b : UInt8, (UInt32.ofNat ((numberNames n).length + b.toNat)).toNat = b.toNat := by
      intro b
      rw [hlength]
      exact toNat_ofNat_wrap hn b.toNat_lt
    -- The mark has three bytes; no name of a number has that length.
    have hnone : (ofLists (numberNames n ++ byteEscapes) (lowScores (numberNames n ++ byteEscapes))).byBytes[mark]? =
        none := by
      rw [byBytes_front, lookup, if_neg]
      · rfl
      · exact fun hmem => absurd (length_of_mem_numberNames hmem) (by decide)
    have hids : (ofLists (numberNames n ++ byteEscapes) (lowScores (numberNames n ++ byteEscapes))).textIds "" =
        mark.map fun b => UInt32.ofNat ((numberNames n).length + b.toNat) := by
      have hchars : markedChars "" = ['\u2581'] := rfl
      rw [textIds_eq, hchars, List.flatMap_singleton]
      exact charIds_of_none mark_eq.symm hnone (map_byteFallback_front _ length_numberNames_ne mark)
    have hknown : (ofLists (numberNames n ++ byteEscapes) (lowScores (numberNames n ++ byteEscapes))).Known
        (mark.map fun b => UInt32.ofNat ((numberNames n).length + b.toNat)) := by
      intro id hmem
      obtain ⟨b, -, rfl⟩ := List.mem_map.mp hmem
      have hb := b.toNat_lt
      change _ < (numberNames n ++ byteEscapes).length
      rw [hid, List.length_append, hlength]
      omega
    -- The wrapped id names the number `b`, not the byte.
    have hstands : ∀ b : UInt8, (ofLists (numberNames n ++ byteEscapes) (lowScores (numberNames n ++ byteEscapes))).standsFor
        (UInt32.ofNat ((numberNames n).length + b.toNat)) =
          Utf8.encode ((numberBits b.toNat).map fun bit => if bit then 'b' else 'a') := by
      intro b
      have hb : b.toNat < n := by
        have hlt := b.toNat_lt
        omega
      -- The name of number `b` spells its bits in letters.
      have hname : (numberNames n)[b.toNat]? = some ((numberBits b.toNat).map fun bit => if bit then 0x62 else 0x61) := by
        unfold numberNames
        rw [List.getElem?_map, List.getElem?_range hb]
        rfl
      have htext : (ofLists (numberNames n ++ byteEscapes) (lowScores (numberNames n ++ byteEscapes))).bytesAt
          (UInt32.ofNat ((numberNames n).length + b.toNat)) =
            (numberBits b.toNat).map fun bit => if bit then 0x62 else 0x61 := by
        change (numberNames n ++ byteEscapes).getD _ [] = _
        rw [hid, List.getD_eq_getElem?_getD, List.getElem?_append_left (by rwa [hlength]), hname, Option.getD_some]
      rw [standsFor_of_none, htext, encode_letters]
      apply Option.eq_none_iff_forall_ne_some.mpr
      intro c hc
      have hsix := length_of_escapedByte hc
      rw [htext, length_of_mem_numberNames (List.mem_of_getElem? hname)] at hsix
      cases hsix
    -- The empty text encodes to the three bytes of the mark, whose ids decode to letters.
    rintro ⟨ids, hencode, hback⟩
    rw [encode_false, hids, mergeLoop_low hknown] at hencode
    cases hencode
    have hout : (mark.map fun b => UInt32.ofNat ((numberNames n).length + b.toNat)).flatMap
        (ofLists (numberNames n ++ byteEscapes) (lowScores (numberNames n ++ byteEscapes))).standsFor =
          Utf8.encode (mark.flatMap fun b => (numberBits b.toNat).map fun bit => if bit then 'b' else 'a') := by
      rw [List.flatMap_map, Utf8.encode, List.flatMap_assoc]
      exact List.flatMap_congr fun b _ => hstands b
    obtain ⟨more, hmore⟩ : ∃ more, (mark.flatMap fun b => (numberBits b.toNat).map fun bit => if bit then 'b' else 'a') =
        'a' :: more := ⟨_, rfl⟩
    rw [decode_eq hknown, hout, hmore] at hback
    exact stripSpace_unmark_ne more (Except.ok.inj hback)

/-- The names make no escapes. -/
theorem escapesStay_numberNames (n : Nat) : EscapesStay (numberNames n ++ byteEscapes) "" := by
  have hnormalize : normalize "" = mark := rfl
  have hlong : ∀ v ∈ numberNames n ++ byteEscapes, v.length = 32 ∨ v.length = 6 := fun v hv =>
    (List.mem_append.mp hv).imp length_of_mem_numberNames length_of_mem_byteEscapes
  constructor
  · intro u hu w hw _ _ _ hspelled
    have hle := hspelled.length_le
    rw [hnormalize, List.length_append] at hle
    change _ ≤ 3 at hle
    rcases hlong u hu with hlength | hlength <;> omega
  · intro u hu w hw _ _ hmade
    -- no two of the lengths make a third
    have hsum := hlong (u ++ w) hmade
    rw [List.length_append] at hsum
    rcases hlong u hu with hlength | hlength <;> rcases hlong w hw with hlength' | hlength' <;> omega

/-- Text is lost where the parts of an escape are spelled and merged, where a byte token is merged, and past
`2^32` entries. -/
theorem encode_decode_limits :
    Loses spelledVocab (zeroScores spelledVocab) (String.ofList ['<', '0', 'x', '4', '1', '>']) ∧
    Loses spelledVocab (zeroScores spelledVocab) (String.ofList ['\u00E9']) ∧
    ∃ vocab scores, EscapesStay vocab "" ∧ Loses vocab scores "" := by
  refine ⟨?_, ?_, ?_⟩
  · apply spelled_loses encode_spelled (@decode_spelled 77 (by decide) ['A'] (by decide) (by simp)) <;> decide
  · apply spelled_loses encode_joined
      (@decode_spelled 11 (by decide) ['<', '0', 'x', 'C', '3', '>', '<', '0', 'x', 'A', '9', '>'] (by decide) (by simp)) <;> decide
  · obtain ⟨n, hn⟩ : ∃ n : Nat, n = 2 ^ 32 := ⟨_, rfl⟩
    exact ⟨_, _, escapesStay_numberNames n, numberNames_loses hn⟩

end GgufSpmTokenizer

end VitniTensor
