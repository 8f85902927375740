import VitniTensor.Tokenizer.ScoreMerge

/-!
# The SentencePiece tokenizer

Vocabulary and scores come from the model file. Text gets a mark in front and for every space, its
characters are looked up, with a token for each byte where there is no entry, and the tokens are
merged by score.
-/

namespace VitniTensor

open Outcome Utf8
open GgufBpe (reserveStrings reserveFloats readStr vocabOf)

namespace GgufSpm

/-- `"▁"`, the mark of a space. -/
def mark : List UInt8 := [0xE2, 0x96, 0x81]

/-! ### Byte escapes -/

/-- The closure `h` of `hex2`. -/
def hexDigit (c : UInt8) : Option UInt8 :=
  if 0x30 ≤ c ∧ c ≤ 0x39 then some (c - 0x30)
  else if 0x61 ≤ c ∧ c ≤ 0x66 then some (c - 0x61 + 10)
  else if 0x41 ≤ c ∧ c ≤ 0x46 then some (c - 0x41 + 10)
  else none

def hex2 (a b : UInt8) : Option UInt8 := do
  let high ← hexDigit a
  let low ← hexDigit b
  some ((high <<< 4) ||| low)

/-- The byte of a text that is spelled `"<0xHH>"`. -/
def escapedByte (v : List UInt8) : Option UInt8 :=
  match v with
  | [v0, v1, v2, a, b, v5] => if v0 = 0x3C ∧ v1 = 0x30 ∧ v2 = 0x78 ∧ v5 = 0x3E then hex2 a b else none
  | _ => none

/-- The table of the byte tokens, where the last one of a byte stays. -/
def byteFallbackOf (vocab : List (List UInt8)) : Vector (Option UInt32) 256 :=
  vocab.zipIdx.foldl
    (fun fallback (t, i) =>
      match escapedByte t with
      | some b => fallback.setIfInBounds b.toNat (some (UInt32.ofNat i))
      | none => fallback)
    (Vector.replicate 256 none)

/-! ### Arrays of the file -/

def readStrArray (g : GgufFile) (key : String) : Res (List (List UInt8)) :=
  match g.metadata[key]? with
  | some (.array arr) =>
    if arr.elemType = .string then do
      reserveStrings arr.len.toNat
      let (out, _) ← forRange arr.len.toNat
        (fun _ (out, p) => do
          let (s, p) ← readStr arr.data p
          pure (out ++ [s], p))
        ([], 0)
      pure out
    else err (.invalidShape "gguf: tokenizer.ggml.tokens missing or not a string array")
  | _ => err (.invalidShape "gguf: tokenizer.ggml.tokens missing or not a string array")

/-- The float at `i`. -/
def readF32 (d : List UInt8) (i : Nat) : Res Binary32 := do
  let o ← word (i * 4)
  let stop ← word (o + 4)
  if stop > d.length then err (.invalidShape "gguf f32 array truncated")
  else do
    let bytes ← slice d o stop
    pure (F32.ofBits (UInt32.ofNat (LittleEndian.ofBytes bytes)))

def readF32Array (g : GgufFile) (key : String) : Res (List Binary32) :=
  match g.metadata[key]? with
  | some (.array arr) =>
    if arr.elemType = .float32 then do
      reserveFloats arr.len.toNat
      collectRange arr.len.toNat (readF32 arr.data)
    else err (.invalidShape "gguf: tokenizer.ggml.scores missing or not an f32 array")
  | _ => err (.invalidShape "gguf: tokenizer.ggml.scores missing or not an f32 array")

end GgufSpm

open GgufSpm

structure GgufSpmTokenizer extends ScoredVocab where
  byteFallback : Vector (Option UInt32) 256

namespace GgufSpmTokenizer

/-- The tokenizer of a token list and its scores. -/
def ofLists (vocab : List (List UInt8)) (scores : List Binary32) : GgufSpmTokenizer where
  vocab := vocab
  scores := scores
  byBytes := vocabOf vocab
  byteFallback := byteFallbackOf vocab

def fromGguf (g : GgufFile) : Res GgufSpmTokenizer := do
  let vocab ← readStrArray g "tokenizer.ggml.tokens"
  let scores ← readF32Array g "tokenizer.ggml.scores"
  if vocab.length ≠ scores.length then err (.invalidShape "gguf tokenizer: tokens/scores length mismatch")
  else pure (ofLists vocab scores)

/-- A mark in front and for every space. -/
def normalize (text : String) : List UInt8 :=
  mark ++ text.toList.flatMap fun ch => if ch = ' ' then mark else String.utf8EncodeChar ch

variable (t : GgufSpmTokenizer)

/-- The tokens of a character: its entry, or those of its bytes. A byte without a token is dropped. -/
def charIds (ch : Char) : List UInt32 :=
  let cb := String.utf8EncodeChar ch
  match t.byBytes[cb]? with
  | some id => [id]
  | none => cb.filterMap fun byte => t.byteFallback.get ⟨byte.toNat, byte.toNat_lt⟩

/-- The tokens of the characters of the normalized text. -/
def textIds (text : String) : List UInt32 :=
  let s := (String.ofBytes? (normalize text)).getD ""
  s.toList.flatMap t.charIds

def encode (text : String) (bos : Bool) : Res (List UInt32) :=
  let front := if bos then [1] else []
  t.mergeLoop front.length (front ++ t.textIds text)

theorem encode_false (text : String) : t.encode text false = t.mergeLoop 0 (t.textIds text) := by
  unfold encode
  dsimp only
  rw [if_neg Bool.false_ne_true, List.length_nil, List.nil_append]

theorem encode_true (text : String) : t.encode text true = t.mergeLoop 1 (1 :: t.textIds text) := by
  unfold encode
  dsimp only
  rw [if_pos rfl, List.length_singleton, List.singleton_append]

/-- The bytes of a token, where an escape stands for its byte. -/
def decodeToken (id : UInt32) : Res (List UInt8) := do
  let v ← index t.vocab id.toNat
  match escapedByte v with
  | some b => pure [b]
  | none => pure v

/-- `String::from_utf8_lossy(out).replace('▁', " ")`. -/
def unmark (out : List UInt8) : String :=
  String.ofList ((fromUtf8Lossy out).toList.map fun ch => if ch = '\u2581' then ' ' else ch)

/-- `s.strip_prefix(' ')`, or `s`. -/
def stripSpace (s : String) : String :=
  match s.toList with
  | ' ' :: rest => String.ofList rest
  | _ => s

def decode (tokens : List UInt32) : Res String := do
  let out ← tokens.mapM t.decodeToken
  pure (stripSpace (unmark out.flatten))

end GgufSpmTokenizer

/-! ### The byte tokens -/

namespace GgufSpm

/-- One turn of the loop over the tokens. -/
private def setFallback (fallback : Vector (Option UInt32) 256) (e : List UInt8 × Nat) : Vector (Option UInt32) 256 :=
  match escapedByte e.1 with
  | some b => fallback.setIfInBounds b.toNat (some (UInt32.ofNat e.2))
  | none => fallback

private theorem setFallback_getElem (fallback : Vector (Option UInt32) 256) (e : List UInt8 × Nat) {k : Nat} (hk : k < 256) :
    (setFallback fallback e)[k] =
      if (escapedByte e.1).map UInt8.toNat = some k then some (UInt32.ofNat e.2) else fallback[k] := by
  unfold setFallback
  cases escapedByte e.1 with
  | none => simp
  | some b =>
    rw [Option.map_some]
    by_cases hb : b.toNat = k
    · subst hb
      simp
    · rw [Vector.getElem_setIfInBounds_ne hk hb, if_neg fun h => hb (Option.some_inj.mp h)]

private theorem foldl_setFallback_eq_some (es : List (List UInt8 × Nat)) {fallback : Vector (Option UInt32) 256} {k : Nat}
    (hk : k < 256) {id : UInt32} (h : (es.foldl setFallback fallback)[k] = some id) :
    (∃ e ∈ es, (escapedByte e.1).map UInt8.toNat = some k ∧ id = UInt32.ofNat e.2) ∨ fallback[k] = some id := by
  induction es generalizing fallback with
  | nil => exact .inr h
  | cons e es ih =>
    rw [List.foldl_cons] at h
    rcases ih h with ⟨e', he', hlater⟩ | hfirst
    · exact .inl ⟨e', List.mem_cons_of_mem e he', hlater⟩
    · rw [setFallback_getElem] at hfirst
      split at hfirst
      next hhere => exact .inl ⟨e, List.mem_cons_self, hhere, (Option.some_inj.mp hfirst).symm⟩
      next => exact .inr hfirst

private theorem foldl_setFallback_isSome (es : List (List UInt8 × Nat)) {fallback : Vector (Option UInt32) 256} {k : Nat}
    (hk : k < 256) (h : (∃ e ∈ es, (escapedByte e.1).map UInt8.toNat = some k) ∨ fallback[k].isSome) :
    ((es.foldl setFallback fallback)[k]).isSome := by
  induction es generalizing fallback with
  | nil => exact h.resolve_left fun ⟨e, he, _⟩ => absurd he List.not_mem_nil
  | cons e es ih =>
    rw [List.foldl_cons]
    apply ih
    rw [setFallback_getElem]
    split
    next => exact .inr rfl
    next hother =>
      refine h.imp_left fun ⟨e', he', hhere⟩ => ⟨e', ?_, hhere⟩
      rcases List.mem_cons.mp he' with rfl | hlater
      · exact absurd hhere hother
      · exact hlater

/-- What is in the table leads to an escape of the byte. -/
theorem byteFallbackOf_eq_some {vocab : List (List UInt8)} {b : UInt8} {id : UInt32}
    (h : (byteFallbackOf vocab).get ⟨b.toNat, b.toNat_lt⟩ = some id) :
    ∃ i v, vocab[i]? = some v ∧ escapedByte v = some b ∧ id = UInt32.ofNat i := by
  have hk : b.toNat < 256 := b.toNat_lt
  rcases foldl_setFallback_eq_some vocab.zipIdx hk h with ⟨e, he, hbyte, rfl⟩ | hempty
  · obtain ⟨b', hb', hsame⟩ := Option.map_eq_some_iff.mp hbyte
    rw [UInt8.toNat_inj.mp hsame] at hb'
    exact ⟨e.2, e.1, List.mem_zipIdx_iff_getElem?.mp he, hb', rfl⟩
  · rw [Vector.getElem_replicate] at hempty
    cases hempty

/-- A byte with an escape in the vocabulary has a token. -/
theorem byteFallbackOf_isSome {vocab : List (List UInt8)} {b : UInt8} {v : List UInt8} (hv : v ∈ vocab)
    (hbyte : escapedByte v = some b) : ((byteFallbackOf vocab).get ⟨b.toNat, b.toNat_lt⟩).isSome := by
  have hk : b.toNat < 256 := b.toNat_lt
  obtain ⟨i, hi⟩ := List.mem_iff_getElem?.mp hv
  apply foldl_setFallback_isSome vocab.zipIdx hk
  left
  exact ⟨(v, i), List.mem_zipIdx_iff_getElem?.mpr hi, by rw [hbyte]; rfl⟩

end GgufSpm

end VitniTensor
