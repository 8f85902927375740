import VitniTensor.Tokenizer.GgufSpm
import VitniTensor.Tokenizer.Llama2cMerges

/-!
# Decoding tokens of llama2.c

A token is its text, save for two quirks: behind the BOS token a space in front is dropped, and `<0xHH>` is a raw
byte. Text that spells neither comes back as it went in.
-/

namespace VitniTensor

open Outcome Neighbours GgufBpe
open Utf8 (encode splitValid brokenLength lossyChars fromUtf8Lossy encode_splitValid splitValid_encode lossyChars_split
  brokenLength_pos brokenLength_le asBytes_eq)
open GgufSpm (hexDigit)
open GgufSpmTokenizer (stripSpace)

/-! ### Broken text -/

/-- A part of a byte string: whole characters, and bytes that break off behind them. -/
structure Chunk where
  valid : String
  invalid : List UInt8
  deriving DecidableEq

/-- How many bytes a character takes by its first one, or none. -/
def charWidth (b : UInt8) : Nat :=
  if b < 0x80 then 1
  else if 0xC2 ≤ b && b < 0xE0 then 2
  else if 0xE0 ≤ b && b < 0xF0 then 3
  else if 0xF0 ≤ b && b < 0xF5 then 4
  else 0

namespace Utf8Error

/-- `valid_up_to` -/
def validUpTo (bytes : List UInt8) : Nat :=
  (encode (splitValid bytes).1).length

/-- `error_len`, which is `None` where the bytes end inside of a character. -/
def errorLen (bytes : List UInt8) : Option Nat :=
  let broken := (splitValid bytes).2
  if brokenLength broken = broken.length ∧ broken.length < charWidth (broken.headD 0) then none
  else some (brokenLength broken)

end Utf8Error

namespace Utf8Chunks

/-- One step of the iterator, and what remains. -/
def next (remaining : List UInt8) : Res (Option (Chunk × List UInt8)) :=
  if remaining.isEmpty then pure none
  else
    match String.ofBytes? remaining with
    | some s => pure (some (⟨s, []⟩, []))
    | none => do
      let validEnd := Utf8Error.validUpTo remaining
      let front ← slice remaining 0 validEnd
      let valid ← (String.ofBytes? front).elim (panic .explicit) pure
      let invalidLen := (Utf8Error.errorLen remaining).getD (remaining.length - validEnd)
      let after ← word (validEnd + invalidLen)
      let invalid ← slice remaining validEnd after
      let rest ← slice remaining after remaining.length
      pure (some (⟨valid, invalid⟩, rest))

/-- All chunks of `remaining`, which are not more than its bytes. -/
def collect : (fuel : Nat) → (remaining : List UInt8) → Res (List Chunk)
  | 0, _ => pure []
  | fuel + 1, remaining => do
    match ← next remaining with
    | none => pure []
    | some (chunk, rest) => do
      let chunks ← collect fuel rest
      pure (chunk :: chunks)

end Utf8Chunks

/-- `utf8_chunks` -/
def utf8Chunks (bytes : List UInt8) : Res (List Chunk) :=
  Utf8Chunks.collect bytes.length bytes

/-- A chunk as text, with `mark` for broken bytes. -/
def Chunk.shown (mark : Char) (c : Chunk) : List Char :=
  c.valid.toList ++ if c.invalid.isEmpty then [] else [mark]

/-! ### Tokens -/

/-- `u8::from_str_radix(s, 16)` -/
def fromStrRadix16 (s : String) : Option UInt8 :=
  let digits := match s.asBytes with
    | 0x2B :: rest => rest
    | bytes => bytes
  if digits.isEmpty then none
  else do
    let n ← digits.foldlM (fun acc c => do
      let d ← hexDigit c
      let n := acc * 16 + d.toNat
      if n < 256 then some n else none) 0
    some (UInt8.ofNat n)

/-- The byte of a text that is spelled `"<0x..>"`. -/
def rawByte (piece : List UInt8) : Option UInt8 :=
  if 6 ≤ piece.length ∧ piece.take 3 = [0x3C, 0x30, 0x78] ∧ piece.getLast? = some 0x3E then do
    let s ← String.ofBytes? ((piece.drop 3).dropLast)
    fromStrRadix16 s
  else none

namespace Llama2cTokenizer

/-- The text of a token behind `prevToken`. -/
def spoken (prevToken : UInt32) (piece : List UInt8) : List UInt8 :=
  let piece := if prevToken = 1 ∧ piece.head? = some 0x20 then piece.tail else piece
  match rawByte piece with
  | some b => [b]
  | none => piece

def decode (t : Llama2cTokenizer) (prevToken token : UInt32) : Res (List UInt8) := do
  let piece ← index t.vocab token.toNat
  pure (spoken prevToken piece)

def decodeBytes (t : Llama2cTokenizer) (prev : UInt32) (tokens : List UInt32) : Res (List UInt8) := do
  let (out, _) ← tokens.foldlM (fun (out, prev) token => do
    let piece ← t.decode prev token
    pure (out ++ piece, token)) (([] : List UInt8), prev)
  pure out

def decodeString (t : Llama2cTokenizer) (prev : UInt32) (tokens : List UInt32) : Res String := do
  let bytes ← t.decodeBytes prev tokens
  let chunks ← utf8Chunks bytes
  pure (String.ofList (chunks.flatMap (Chunk.shown '?')))

end Llama2cTokenizer

/-! ### Chunks -/

namespace Utf8Chunks

theorem next_nil : next [] = .ok none := rfl

theorem ofBytes?_encode (cs : List Char) : String.ofBytes? (encode cs) = some (String.ofList cs) := by
  have hbytes : encode cs = (String.ofList cs).asBytes := by rw [asBytes_eq, String.toList_ofList]
  rw [hbytes, String.ofBytes?_asBytes]

/-- The length of the broken character, whether or not the bytes end inside of it. -/
theorem invalidLen_eq (bytes : List UInt8) :
    (Utf8Error.errorLen bytes).getD (bytes.length - Utf8Error.validUpTo bytes) = brokenLength (splitValid bytes).2 := by
  have hlength := congrArg List.length (encode_splitValid bytes)
  rw [List.length_append] at hlength
  unfold Utf8Error.errorLen Utf8Error.validUpTo
  dsimp only
  split
  next hends =>
    rw [Option.getD_none, hends.1]
    omega
  next => rfl

/-- The chunk in front: characters as long as there are whole ones, and one broken one. -/
theorem next_eq {bytes : List UInt8} (h : bytes ≠ []) (hmemory : bytes.length < wordSize) :
    next bytes = .ok (some (⟨String.ofList (splitValid bytes).1,
      (splitValid bytes).2.take (brokenLength (splitValid bytes).2)⟩,
      (splitValid bytes).2.drop (brokenLength (splitValid bytes).2))) := by
  have hsplit := encode_splitValid bytes
  have hinvalid := invalidLen_eq bytes
  unfold next
  rw [if_neg (by simpa using h)]
  cases hvalid : String.ofBytes? bytes with
  | some s =>
    -- whole characters only
    have hbytes := String.asBytes_of_ofBytes? hvalid
    rw [← hbytes, asBytes_eq, splitValid_encode]
    simp [pure, Except.pure]
  | none =>
    have hend : Utf8Error.validUpTo bytes = (encode (splitValid bytes).1).length := rfl
    obtain ⟨cs, rest, hcs⟩ : ∃ cs rest, splitValid bytes = (cs, rest) := ⟨_, _, rfl⟩
    rw [hcs] at hsplit hinvalid hend
    dsimp only at hsplit hinvalid hend
    have hbroken : rest ≠ [] := by
      rintro rfl
      rw [← hsplit, List.append_nil, ofBytes?_encode] at hvalid
      cases hvalid
    have hwidth := brokenLength_le hbroken
    have hlength := congrArg List.length hsplit
    rw [List.length_append] at hlength
    have hfront : (slice bytes 0 (encode cs).length : Res (List UInt8)) = .ok (encode cs) := by
      rw [slice_of_le (Nat.zero_le _) (by omega), List.drop_zero, Nat.sub_zero, ← hsplit, List.take_left]
    have hmiddle : (slice bytes (encode cs).length ((encode cs).length + brokenLength rest) : Res (List UInt8)) =
        .ok (rest.take (brokenLength rest)) := by
      rw [slice_of_le (by omega) (by omega), ← hsplit, List.drop_left, Nat.add_sub_cancel_left]
    have hback : (slice bytes ((encode cs).length + brokenLength rest) bytes.length : Res (List UInt8)) =
        .ok (rest.drop (brokenLength rest)) := by
      rw [slice_of_le (by omega) (Nat.le_refl _), List.take_of_length_le (by rw [List.length_drop]), ← hsplit,
        ← List.drop_drop, List.drop_left]
    dsimp only
    rw [hinvalid, hend, hfront, ok_bind, ofBytes?_encode, Option.elim_some, word_of_lt (by omega)]
    rw [show (pure (String.ofList cs) : Res String) = .ok (String.ofList cs) from rfl, ok_bind, ok_bind, hmiddle, ok_bind,
      hback, ok_bind, hcs]
    rfl

/-- The iterator ends with all of the bytes: it loses none, no chunk is empty, and it breaks off where
`from_utf8_lossy` does. -/
theorem collect_eq {fuel : Nat} {bytes : List UInt8} (hfuel : bytes.length ≤ fuel) (hmemory : bytes.length < wordSize) :
    ∃ chunks, collect fuel bytes = .ok chunks ∧ chunks.flatMap (fun c => c.valid.asBytes ++ c.invalid) = bytes ∧
      (∀ c ∈ chunks, c.valid.asBytes ++ c.invalid ≠ []) ∧ lossyChars bytes = chunks.flatMap (Chunk.shown '\uFFFD') := by
  induction fuel generalizing bytes with
  | zero =>
    obtain rfl := List.length_eq_zero_iff.mp (Nat.le_zero.mp hfuel)
    exact ⟨[], rfl, rfl, fun c hmem => absurd hmem List.not_mem_nil, by rw [lossyChars]; rfl⟩
  | succ fuel ih =>
    by_cases hnil : bytes = []
    · subst hnil
      refine ⟨[], ?_, rfl, fun c hmem => absurd hmem List.not_mem_nil, by rw [lossyChars]; rfl⟩
      unfold collect
      rw [next_nil, ok_bind]
      rfl
    · have hnext := next_eq hnil hmemory
      have hsplit := encode_splitValid bytes
      have hlossy := lossyChars_split bytes
      obtain ⟨cs, rest, hcs⟩ : ∃ cs rest, splitValid bytes = (cs, rest) := ⟨_, _, rfl⟩
      rw [hcs] at hnext hsplit hlossy
      dsimp only at hnext hsplit hlossy
      have hbytes : (String.ofList cs).asBytes = encode cs := by rw [asBytes_eq, String.toList_ofList]
      have hpos := brokenLength_pos rest
      have hchunk : (String.ofList cs).asBytes ++ rest.take (brokenLength rest) ≠ [] := by
        intro hempty
        rw [hbytes, List.append_eq_nil_iff, List.take_eq_nil_iff] at hempty
        obtain ⟨hfront, hzero | rfl⟩ := hempty
        · omega
        · rw [hfront] at hsplit
          exact hnil hsplit.symm
      have hshorter : (rest.drop (brokenLength rest)).length < bytes.length := by
        have hlength := congrArg List.length hsplit
        have hpositive := List.length_pos_of_ne_nil hchunk
        rw [hbytes, List.length_append, List.length_take] at hpositive
        rw [List.length_append] at hlength
        rw [List.length_drop]
        omega
      obtain ⟨chunks, hcollect, hjoin, hnonempty, hshown⟩ := @ih (rest.drop (brokenLength rest)) (by omega) (by omega)
      refine ⟨⟨String.ofList cs, rest.take (brokenLength rest)⟩ :: chunks, ?_, ?_, List.forall_mem_cons.mpr ⟨hchunk, hnonempty⟩, ?_⟩
      · unfold collect
        rw [hnext, ok_bind]
        dsimp only
        rw [hcollect, ok_bind]
        rfl
      · rw [List.flatMap_cons, hjoin, hbytes, List.append_assoc, List.take_append_drop, hsplit]
      · rw [hlossy, List.flatMap_cons, Chunk.shown, String.toList_ofList, List.append_assoc]
        congr 1
        rw [← hshown]
        by_cases hrest : rest = []
        · subst hrest
          rw [if_pos rfl, List.take_nil, List.drop_nil, lossyChars]
          rfl
        · have hsome : (rest.take (brokenLength rest)).isEmpty = false := by
            rw [List.isEmpty_eq_false_iff]
            simpa [List.take_eq_nil_iff, hrest] using Nat.ne_of_gt hpos
          rw [if_neg hrest]
          dsimp only
          rw [hsome]
          rfl

/-- Text is one chunk, and nothing is marked in it. -/
theorem utf8Chunks_text (mark : Char) (s : String) :
    ∃ chunks, utf8Chunks s.asBytes = .ok chunks ∧ String.ofList (chunks.flatMap (Chunk.shown mark)) = s := by
  cases hbytes : s.asBytes with
  | nil =>
    have hempty : s = "" := String.asBytes_injective (hbytes.trans rfl)
    subst hempty
    exact ⟨[], rfl, rfl⟩
  | cons b bytes =>
    have hnext : next (b :: bytes) = .ok (some (⟨s, []⟩, [])) := by
      unfold next
      rw [← hbytes, String.ofBytes?_asBytes, if_neg (by simp [hbytes])]
      rfl
    have hend : collect bytes.length [] = .ok [] := by cases bytes <;> rfl
    refine ⟨[⟨s, []⟩], ?_, by simp [Chunk.shown]⟩
    unfold utf8Chunks collect
    rw [List.length_cons]
    dsimp only
    rw [hnext, ok_bind]
    dsimp only
    rw [hend]
    rfl

end Utf8Chunks

/-- **No byte is lost in chunks**: they come with every byte in order, none of them is empty, and with U+FFFD for their
broken bytes they are the text of `from_utf8_lossy`. -/
theorem utf8Chunks_lossless (bytes : List UInt8) (hmemory : bytes.length < wordSize) :
    ∃ chunks, utf8Chunks bytes = .ok chunks ∧ chunks.flatMap (fun c => c.valid.asBytes ++ c.invalid) = bytes ∧
      (∀ c ∈ chunks, c.valid.asBytes ++ c.invalid ≠ []) ∧
      fromUtf8Lossy bytes = String.ofList (chunks.flatMap (Chunk.shown '\uFFFD')) := by
  obtain ⟨chunks, hcollect, hjoin, hnonempty, hshown⟩ := Utf8Chunks.collect_eq (Nat.le_refl bytes.length) hmemory
  exact ⟨chunks, hcollect, hjoin, hnonempty, congrArg String.ofList hshown⟩

/-- A letter, and a byte that starts nothing. -/
theorem utf8Chunks_lossless_broken : ∃ chunks, utf8Chunks [0x68, 0xFF] = .ok chunks ∧
    chunks.flatMap (fun c => c.valid.asBytes ++ c.invalid) = [0x68, 0xFF] ∧
    (∀ c ∈ chunks, c.valid.asBytes ++ c.invalid ≠ []) ∧
    fromUtf8Lossy [0x68, 0xFF] = String.ofList (chunks.flatMap (Chunk.shown '\uFFFD')) :=
  utf8Chunks_lossless [0x68, 0xFF] (by decide)

example : (utf8Chunks [0x68, 0xFF]).toOption = some [⟨"h", [0xFF]⟩] := by decide +kernel

/-! ### What a token is decoded to -/

theorem length_of_rawByte {piece : List UInt8} {b : UInt8} (h : rawByte piece = some b) : 6 ≤ piece.length := by
  unfold rawByte at h
  split at h
  next hspelled => exact hspelled.1
  next => cases h

theorem rawByte_short {piece : List UInt8} (h : piece.length < 6) : rawByte piece = none :=
  if_neg fun hspelled => Nat.not_le_of_lt h hspelled.1

namespace Llama2cTokenizer

/-- A piece without quirks. -/
structure Plain (prevToken : UInt32) (piece : List UInt8) : Prop where
  kept : ¬(prevToken = 1 ∧ piece.head? = some 0x20)
  spelled : rawByte piece = none

theorem Plain.spoken {prev : UInt32} {piece : List UInt8} (h : Plain prev piece) : spoken prev piece = piece := by
  unfold Llama2cTokenizer.spoken
  rw [if_neg h.kept]
  dsimp only
  rw [h.spelled]

/-- A piece with a quirk gets shorter. -/
theorem length_spoken {prev : UInt32} {piece : List UInt8} (h : ¬Plain prev piece) :
    (spoken prev piece).length < piece.length := by
  have hraw : ∀ xs : List UInt8, rawByte xs ≠ none →
      (match rawByte xs with | some b => [b] | none => xs).length < xs.length := by
    intro xs hsome
    cases hb : rawByte xs with
    | none => exact absurd hb hsome
    | some b => exact Nat.lt_of_lt_of_le (show 1 < 6 by decide) (length_of_rawByte hb)
  unfold spoken
  by_cases hspace : prev = 1 ∧ piece.head? = some 0x20
  · obtain ⟨rest, rfl⟩ := List.head?_eq_some_iff.mp hspace.2
    rw [if_pos hspace]
    dsimp only [List.tail_cons]
    by_cases hnone : rawByte rest = none
    · rw [hnone]
      exact Nat.lt_succ_self _
    · exact Nat.lt_succ_of_lt (hraw rest hnone)
  · rw [if_neg hspace]
    exact hraw piece fun hnone => h ⟨hspace, hnone⟩

theorem length_spoken_le (prev : UInt32) (piece : List UInt8) : (spoken prev piece).length ≤ piece.length := by
  by_cases h : Plain prev piece
  · rw [h.spoken]
  · exact Nat.le_of_lt (length_spoken h)

section Heard

variable (t : Llama2cTokenizer)

/-- What tokens are decoded to, one after the other. -/
def heard : UInt32 → List UInt32 → List UInt8
  | _, [] => []
  | prev, token :: tokens => spoken prev (t.bytesAt token) ++ heard token tokens

variable {t} {tokens : List UInt32}

theorem decodeBytes_eq (hknown : t.Known tokens) (prev : UInt32) : t.decodeBytes prev tokens = .ok (t.heard prev tokens) := by
  have hfold : ∀ out : List UInt8, ∃ last, tokens.foldlM (fun (out, prev) token => do
      let piece ← t.decode prev token
      pure (out ++ piece, token)) (out, prev) = (.ok (out ++ t.heard prev tokens, last) : Res (List UInt8 × UInt32)) := by
    induction tokens generalizing prev with
    | nil => exact fun out => ⟨prev, by rw [heard, List.append_nil]; rfl⟩
    | cons token tokens ih =>
      intro out
      obtain ⟨htoken, hrest⟩ := List.forall_mem_cons.mp hknown
      obtain ⟨last, hlast⟩ := ih hrest token (out ++ spoken prev (t.bytesAt token))
      refine ⟨last, ?_⟩
      have hone : t.decode prev token = .ok (spoken prev (t.bytesAt token)) := by
        unfold decode
        rw [ScoredVocab.index_getD htoken [], ok_bind]
        rfl
      rw [List.foldlM_cons]
      dsimp only
      rw [hone, ok_bind, show (pure (out ++ spoken prev (t.bytesAt token), token) : Res (List UInt8 × UInt32)) =
        .ok (out ++ spoken prev (t.bytesAt token), token) from rfl, ok_bind, hlast, heard, List.append_assoc]
  obtain ⟨last, hlast⟩ := hfold []
  unfold decodeBytes
  rw [hlast, ok_bind, List.nil_append]
  rfl

theorem length_heard_le (prev : UInt32) (tokens : List UInt32) :
    (t.heard prev tokens).length ≤ (tokens.flatMap t.bytesAt).length := by
  induction tokens generalizing prev with
  | nil => exact Nat.le_refl _
  | cons token tokens ih =>
    have hone := length_spoken_le prev (t.bytesAt token)
    have hrest := ih token
    rw [heard, List.flatMap_cons, List.length_append, List.length_append]
    omega

/-- What is decoded is the text of the tokens exactly where no token has a quirk. -/
theorem heard_eq_iff (prev : UInt32) (tokens : List UInt32) :
    t.heard prev tokens = tokens.flatMap t.bytesAt ↔
      (prev :: tokens).IsChain fun prev token => Plain prev (t.bytesAt token) := by
  induction tokens generalizing prev with
  | nil => exact ⟨fun _ => List.IsChain.singleton _, fun _ => rfl⟩
  | cons token tokens ih =>
    rw [List.isChain_cons_cons, ← ih token, heard, List.flatMap_cons]
    constructor
    · intro h
      have hlength := congrArg List.length h
      rw [List.length_append, List.length_append] at hlength
      have hone := length_spoken_le prev (t.bytesAt token)
      have hrest := @length_heard_le t token tokens
      have hplain : Plain prev (t.bytesAt token) := by
        by_contra hquirk
        have hless := length_spoken hquirk
        omega
      rw [hplain.spoken] at h
      exact ⟨hplain, List.append_cancel_left h⟩
    · rintro ⟨hplain, hrest⟩
      rw [hplain.spoken, hrest]

end Heard

/-! ### Text and back -/

/-- The bytes, and one merge. -/
abbrev hiVocab : Llama2cTokenizer :=
  ⟨ScoredVocab.ofEntries (byteEntries ++ [(0x40A00000, "hi".asBytes)]), 2⟩

theorem fromBlob_hiVocab :
    fromBlob (write 2 (byteEntries ++ [(0x40A00000, "hi".asBytes)])) (byteEntries ++ [(0x40A00000, "hi".asBytes)]).length =
      .ok hiVocab :=
  fromBlob_bytes [(0x40A00000, "hi".asBytes)] (by decide) (by decide) (by decide)

theorem length_hiVocab : (byteEntries ++ [(0x40A00000, "hi".asBytes)]).length ≤ 2 ^ 32 := by
  rw [List.length_append, length_byteEntries]
  decide

section RoundTrip

variable {blob : List UInt8} {vocabSize : Nat} {t : Llama2cTokenizer}

/-- The tokens of a text: known ones, none of them empty, whose texts are the text. -/
theorem encode_text (h : fromBlob blob vocabSize = .ok t) (hids : vocabSize ≤ 2 ^ 32)
    (hbytes : ∀ b : UInt8, [b] ∈ t.vocab) (text : String) :
    ∃ ids, t.encode text false = .ok ids ∧ t.Known ids ∧ (∀ id ∈ ids, t.bytesAt id ≠ []) ∧
      ids.flatMap t.bytesAt = text.asBytes := by
  obtain ⟨hwf, rfl⟩ := wellFormed_of_fromBlob h
  have hstart := map_bytesAt_byteIds hwf hids hbytes text
  obtain ⟨n, out, hout, hrun, -⟩ := ScoredVocab.run_mergeLoop hwf 0 (known_byteIds hwf text)
  have hnonempty : ∀ id ∈ t.byteIds text, t.bytesAt id ≠ [] := by
    intro id hid hnil
    have hmem : t.bytesAt id ∈ text.asBytes.map fun b => [b] := hstart ▸ List.mem_map_of_mem hid
    obtain ⟨b, -, hb⟩ := List.mem_map.mp hmem
    rw [hnil] at hb
    cases hb
  have hkeeps := hrun.keeps
    (fun tokens => t.Known tokens ∧ (∀ id ∈ tokens, t.bytesAt id ≠ []) ∧
      tokens.flatMap t.bytesAt = (t.byteIds text).flatMap t.bytesAt)
    (fun tokens next hs hstep => by
      refine ⟨hstep.known hwf hs.1, ?_, (hstep.flatMap_bytesAt hwf hids hs.1).trans hs.2.2⟩
      refine hstep.forall_mem hwf hs.1 hs.2.1 fun a b id ha _ hid hnil => ?_
      rw [((hwf.byBytes hid).2 hids).2, List.append_eq_nil_iff] at hnil
      exact ha hnil.1)
    ⟨known_byteIds hwf text, hnonempty, rfl⟩
  refine ⟨out, hout, hkeeps.1, hkeeps.2.1, ?_⟩
  rw [hkeeps.2.2, List.flatMap_def, hstart, ← List.flatMap_def, List.flatMap_singleton']

/-- **The bytes of a text come back** exactly where no token of it has a quirk: none behind a BOS token starts with
a space, and none is spelled as a raw byte. -/
theorem decodeBytes_encode_iff (h : fromBlob blob vocabSize = .ok t) (hids : vocabSize ≤ 2 ^ 32)
    (hbytes : ∀ b : UInt8, [b] ∈ t.vocab) (text : String) (prev : UInt32) :
    ∃ ids, t.encode text false = .ok ids ∧
      (t.decodeBytes prev ids = .ok text.asBytes ↔
        (prev :: ids).IsChain fun prev token => Plain prev (t.bytesAt token)) := by
  obtain ⟨ids, hencode, hknown, -, hjoin⟩ := encode_text h hids hbytes text
  refine ⟨ids, hencode, ?_⟩
  rw [decodeBytes_eq hknown, ← heard_eq_iff, hjoin]
  exact ⟨Except.ok.inj, congrArg Except.ok⟩

theorem decodeBytes_encode_hi : ∃ ids, hiVocab.encode " hi" false = .ok ids ∧
    (hiVocab.decodeBytes 1 ids = .ok " hi".asBytes ↔
      (1 :: ids).IsChain fun prev token => Plain prev (hiVocab.bytesAt token)) :=
  decodeBytes_encode_iff fromBlob_hiVocab length_hiVocab (hasBytes _) " hi" 1

/-- Only the space is spelled with its byte. -/
theorem eq_space_of_encode {c : Char} {rest : List UInt8} (h : String.utf8EncodeChar c = 0x20 :: rest) : c = ' ' := by
  obtain rfl := (Utf8.utf8EncodeChar_ascii h).mpr (by decide)
  have hbytes : (String.ofList [c]).asBytes = (String.ofList [' ']).asBytes := by
    rw [asBytes_eq, asBytes_eq, String.toList_ofList, String.toList_ofList, Utf8.encode_cons, h]
    rfl
  have hlist := congrArg String.toList (String.asBytes_injective hbytes)
  rw [String.toList_ofList, String.toList_ofList] at hlist
  exact (List.cons.inj hlist).1

theorem stripSpace_cons {c : Char} (cs : List Char) :
    stripSpace (String.ofList (c :: cs)) = String.ofList (if c = ' ' then cs else c :: cs) := by
  unfold stripSpace
  rw [String.toList_ofList]
  split
  next heq =>
    obtain ⟨rfl, rfl⟩ := List.cons.inj heq
    rfl
  next hother =>
    rw [if_neg]
    rintro rfl
    exact hother cs rfl

theorem asBytes_stripSpace (s : String) : (stripSpace s).asBytes =
    if s.asBytes.head? = some 0x20 then s.asBytes.tail else s.asBytes := by
  obtain ⟨cs, rfl⟩ := s.exists_eq_ofList
  cases cs with
  | nil => rfl
  | cons c cs =>
    obtain ⟨b, rest, hc, -⟩ := Utf8.utf8EncodeChar_eq c
    rw [stripSpace_cons, asBytes_eq, asBytes_eq, String.toList_ofList, String.toList_ofList, Utf8.encode_cons, hc,
      List.cons_append, List.head?_cons, List.tail_cons]
    by_cases hspace : b = 0x20
    · subst hspace
      have hrest : rest = [] := (Utf8.utf8EncodeChar_ascii hc).mpr (by decide)
      rw [if_pos (eq_space_of_encode hc), if_pos rfl, hrest]
      rfl
    · have hother : c ≠ ' ' := by
        rintro rfl
        exact hspace (List.cons.inj hc).1.symm
      rw [if_neg hother, if_neg fun h => hspace (Option.some.inj h), Utf8.encode_cons, hc]
      rfl

/-- A text that spells neither the BOS token nor a raw byte. -/
structure PlainText (t : Llama2cTokenizer) (text : String) : Prop where
  bos : ¬t.bytesAt 1 <:+: text.asBytes
  raw : ∀ piece, piece <:+: text.asBytes → rawByte piece = none

theorem plainText_hi : hiVocab.PlainText " hi" where
  bos := by
    have hone : hiVocab.bytesAt 1 = [1] := by decide +kernel
    rw [hone]
    decide
  raw piece hpiece := rawByte_short (Nat.lt_of_le_of_lt hpiece.length_le (by decide))

/-- Tokens of a plain text, from the second one on. -/
theorem heard_behind {prev : UInt32} {ids : List UInt32} (hprev : prev ≠ 1) (hbos : (1 : UInt32) ∉ ids)
    (hraw : ∀ id ∈ ids, rawByte (t.bytesAt id) = none) : t.heard prev ids = ids.flatMap t.bytesAt := by
  rw [heard_eq_iff]
  induction ids generalizing prev with
  | nil => exact List.IsChain.singleton _
  | cons id ids ih =>
    obtain ⟨hid, hrest⟩ := List.forall_mem_cons.mp hraw
    rw [List.isChain_cons_cons]
    exact ⟨⟨fun h => hprev h.1, hid⟩, ih (fun hone => hbos (hone ▸ List.mem_cons_self))
      (fun hone => hbos (List.mem_cons_of_mem id hone)) hrest⟩

/-- Behind the BOS token the space in front of a plain text is dropped. -/
theorem heard_plain {text : String} (hplain : t.PlainText text) {ids : List UInt32}
    (hnonempty : ∀ id ∈ ids, t.bytesAt id ≠ []) (hjoin : ids.flatMap t.bytesAt = text.asBytes) (prev : UInt32) :
    t.heard prev ids = (if prev = 1 then stripSpace text else text).asBytes := by
  have hpart : ∀ id ∈ ids, t.bytesAt id <:+: text.asBytes := fun id hid => by
    rw [← hjoin, List.flatMap_def]
    exact List.infix_of_mem_flatten (List.mem_map_of_mem hid)
  have hbos : (1 : UInt32) ∉ ids := fun hone => hplain.bos (hpart 1 hone)
  have hraw : ∀ id ∈ ids, rawByte (t.bytesAt id) = none := fun id hid => hplain.raw _ (hpart id hid)
  by_cases hprev : prev = 1
  · subst hprev
    rw [if_pos rfl, asBytes_stripSpace, ← hjoin]
    cases ids with
    | nil => rfl
    | cons id ids =>
      obtain ⟨hid, hrest⟩ := List.forall_mem_cons.mp hraw
      have hbehind := @heard_behind t id ids (fun hone => hbos (hone ▸ List.mem_cons_self))
        (fun hone => hbos (List.mem_cons_of_mem id hone)) hrest
      have hfirst := hnonempty id List.mem_cons_self
      have hpiece := hpart id List.mem_cons_self
      rw [heard, hbehind, List.flatMap_cons]
      cases hbytes : t.bytesAt id with
      | nil => exact absurd hbytes hfirst
      | cons b bytes =>
        rw [hbytes] at hid hpiece
        unfold spoken
        rw [List.cons_append, List.head?_cons, List.head?_cons, List.tail_cons, List.tail_cons]
        by_cases hspace : b = 0x20
        · rw [if_pos ⟨rfl, congrArg some hspace⟩, if_pos (congrArg some hspace)]
          -- what is behind the space is a part of the text too
          have hnone : rawByte bytes = none := hplain.raw _ ((List.suffix_cons b bytes).isInfix.trans hpiece)
          dsimp only
          rw [hnone]
        · have hother : ¬(some b = some (0x20 : UInt8)) := fun h => hspace (Option.some.inj h)
          rw [if_neg (fun h => hother h.2), if_neg hother]
          dsimp only
          rw [hid]
          rfl
  · rw [if_neg hprev, heard_behind hprev hbos hraw, hjoin]

/-- **A plain text comes back**: its tokens are decoded to it, and behind a BOS token to it without the space that it
starts with. -/
theorem decodeString_encode (h : fromBlob blob vocabSize = .ok t) (hids : vocabSize ≤ 2 ^ 32)
    (hbytes : ∀ b : UInt8, [b] ∈ t.vocab) (text : String) (hplain : t.PlainText text) :
    ∃ ids, t.encode text false = .ok ids ∧
      ∀ prev, t.decodeString prev ids = .ok (if prev = 1 then stripSpace text else text) := by
  obtain ⟨ids, hencode, hknown, hnonempty, hjoin⟩ := encode_text h hids hbytes text
  refine ⟨ids, hencode, fun prev => ?_⟩
  obtain ⟨chunks, hchunks, hshown⟩ := Utf8Chunks.utf8Chunks_text '?' (if prev = 1 then stripSpace text else text)
  unfold decodeString
  rw [decodeBytes_eq hknown, ok_bind, heard_plain hplain hnonempty hjoin, hchunks, ok_bind, hshown]
  rfl

theorem decodeString_encode_hi : ∃ ids, hiVocab.encode " hi" false = .ok ids ∧
    ∀ prev, hiVocab.decodeString prev ids = .ok (if prev = 1 then stripSpace " hi" else " hi") :=
  decodeString_encode fromBlob_hiVocab length_hiVocab (hasBytes _) " hi" plainText_hi

end RoundTrip

end Llama2cTokenizer

end VitniTensor
