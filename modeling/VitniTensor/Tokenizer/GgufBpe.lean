import VitniTensor.Gguf.Types
import VitniTensor.Lib.LittleEndian
import VitniTensor.Lib.Neighbours
import VitniTensor.Tokenizer.Pretokenize

/-!
# The byte-level BPE tokenizer

Vocabulary and merges come from the model file. A piece of text becomes one symbol for each byte,
the symbols are merged by rank, and what is left is looked up. Strings of the file are byte
strings, valid UTF-8 or not.
-/

namespace VitniTensor

open Outcome Utf8 Neighbours

namespace GgufBpe

/-! ### The byte characters -/

/-- `char::from_u32(n).unwrap()`, which is only called below `0x200`. -/
def charOf (n : Nat) : Char :=
  Char.ofNat n

/-- The bytes that stand for themselves. -/
def direct : List Nat :=
  List.range' 0x21 (0x7E + 1 - 0x21) ++ List.range' 0xA1 (0xAC + 1 - 0xA1) ++ List.range' 0xAE (0xFF + 1 - 0xAE)

/-- One turn of the loop over them. -/
def setDirect (s : Vector Char 256 × Vector Bool 256) (b : Nat) : Vector Char 256 × Vector Bool 256 :=
  (s.1.setIfInBounds b (charOf b), s.2.setIfInBounds b true)

/-- One turn of the loop over all bytes, which numbers the others from `256` on. -/
def setNext (used : Vector Bool 256) (s : Vector Char 256 × Nat) (b : Nat) : Vector Char 256 × Nat :=
  if used[b]?.getD true then s else (s.1.setIfInBounds b (charOf (256 + s.2)), s.2 + 1)

def setSpare (marked : Vector Char 256 × Vector Bool 256) : Vector Char 256 :=
  ((List.range 256).foldl (setNext marked.2) (marked.1, 0)).1

@[irreducible] def bytesToUnicode : Vector Char 256 :=
  setSpare (direct.foldl setDirect (Vector.replicate 256 (charOf 0), Vector.replicate 256 false))

/-! ### Merge pairs -/

abbrev Symbol := List UInt8

/-- The order of `BTreeMap` on pairs. -/
abbrev comparePair : Symbol × Symbol → Symbol × Symbol → Ordering :=
  compareLex (compareOn Prod.fst) (compareOn Prod.snd)

abbrev MergeRank := Std.TreeMap (Symbol × Symbol) UInt32 comparePair

theorem comparePair_eq {p q : Symbol × Symbol} : comparePair p q = .eq ↔ p = q := by
  unfold comparePair
  rw [compareLex_eq_eq, compareOn, compareOn, Std.LawfulEqCmp.compare_eq_iff_eq,
    Std.LawfulEqCmp.compare_eq_iff_eq, Prod.ext_iff]

/-- A merge is written `"A B"`, split at its first space. -/
def listedPair (m : List UInt8) : Option (Symbol × Symbol) :=
  match m.findIdx? (· = 0x20) with
  | some sp => some (m.take sp, m.drop (sp + 1))
  | none => none

def vocabOf (toks : List Symbol) : Std.TreeMap Symbol UInt32 :=
  toks.zipIdx.foldl (fun vocab (t, i) => vocab.insertIfNew t (UInt32.ofNat i)) ∅

def mergeRankOf (merges : List (List UInt8)) : MergeRank :=
  merges.zipIdx.foldl
    (fun mergeRank (m, rank) =>
      match listedPair m with
      | some pair => mergeRank.insertIfNew pair (UInt32.ofNat rank)
      | none => mergeRank)
    ∅

/-! ### String arrays of the file -/

/-- `Vec::with_capacity` for strings of 24 bytes. -/
def reserveStrings (n : Nat) : Res Unit :=
  if n * 24 < 2 ^ 63 then .ok () else panic .capacityOverflow

/-- `Vec::with_capacity` for floats. -/
def reserveFloats (n : Nat) : Res Unit :=
  if n * 4 < 2 ^ 63 then .ok () else panic .capacityOverflow

/-- The string at `p`, and where the next one starts. -/
def readStr (d : List UInt8) (p : Nat) : Res (List UInt8 × Nat) := do
  let start ← word (p + 8)
  if start > d.length then err (.invalidShape "gguf str array truncated")
  else do
    let bytes ← slice d p start
    let stop ← word (start + LittleEndian.ofBytes bytes)
    if stop > d.length then err (.invalidShape "gguf str element past end")
    else do
      let s ← slice d start stop
      pure (s, stop)

def readStrArray (g : GgufFile) (key : String) : Res (List (List UInt8)) :=
  match g.metadata[key]? with
  | some (.array arr) =>
    if arr.elemType = .string then do
      reserveStrings arr.len.toNat
      let (out, _) ← forRange arr.len.toNat
        (fun _ (out, p) => do
          let (s, p) ← readStr arr.data p
          pure (out ++ [s], p))
        ([], 0)
      pure out
    else err (.invalidShape "gguf: expected a string array")
  | _ => err (.invalidShape "gguf: expected a string array")

/-! ### Merging -/

/-- The first pair of neighbours of the lowest rank below `u32::MAX`. -/
def bestPair (mergeRank : MergeRank) (symbols : List Symbol) : Option Nat :=
  ((List.range (symbols.length - 1)).foldl
    (fun best i =>
      -- both places are in range
      match mergeRank[(symbols.getD i [], symbols.getD (i + 1) [])]? with
      | some r => if r < best.1 then (r, some i) else best
      | none => best)
    (UInt32.ofNat (2 ^ 32 - 1), none)).2

def mergeAt (symbols : List Symbol) (i : Nat) : List Symbol :=
  (symbols.set i (symbols.getD i [] ++ symbols.getD (i + 1) [])).eraseIdx (i + 1)

/-- The rank of the pair at `i`. -/
def rankAt (mergeRank : MergeRank) (symbols : List Symbol) (i : Nat) : Option UInt32 :=
  mergeRank[(symbols.getD i [], symbols.getD (i + 1) [])]?

theorem rank_contest (limit : UInt32) : Contest (fun r best : UInt32 => r < best) limit where
  irrefl a := UInt32.lt_irrefl a
  trans _ _ _ := UInt32.lt_trans
  apart a b c hac _ := by
    rcases UInt32.lt_or_le a b with hab | hba
    · exact .inl hab
    · exact .inr (UInt32.lt_of_le_of_lt hba hac)

theorem bestPair_eq (mergeRank : MergeRank) (symbols : List Symbol) :
    bestPair mergeRank symbols =
      (scan (fun r best : UInt32 => r < best) (fun i => (rankAt mergeRank symbols i).map (·, i))
        (UInt32.ofNat (2 ^ 32 - 1)) 0 (symbols.length - 1)).2 := by
  have hturn : ∀ (best : UInt32 × Option Nat) (i : Nat),
      (match mergeRank[(symbols.getD i [], symbols.getD (i + 1) [])]? with
        | some r => if r < best.1 then (r, some i) else best
        | none => best) =
      see (fun r best : UInt32 => r < best) (fun i => (rankAt mergeRank symbols i).map (·, i)) best i := by
    intro best i
    simp only [see, rankAt]
    cases mergeRank[(symbols.getD i [], symbols.getD (i + 1) [])]? <;> rfl
  unfold bestPair scan
  simp only [hturn]
  rw [List.range_eq_range', Nat.sub_zero]

/-- What the scan finds is the first of the pairs of the lowest rank. -/
theorem bestPair_first {mergeRank : MergeRank} {symbols : List Symbol} {i : Nat}
    (h : bestPair mergeRank symbols = some i) :
    ∃ r, FirstBest (fun r best : UInt32 => r < best) (fun i => (rankAt mergeRank symbols i).map (·, i))
      (UInt32.ofNat (2 ^ 32 - 1)) 0 (symbols.length - 1) i r i := by
  rw [bestPair_eq] at h
  obtain ⟨k, hfirst⟩ := (scan_eq_some (rank_contest _)).mp (Prod.ext rfl h)
  obtain ⟨r, -, hr⟩ := Option.map_eq_some_iff.mp hfirst.here
  cases hr
  exact ⟨_, hfirst⟩

/-- What the scan finds are neighbours with a rank. -/
theorem bestPair_spec {mergeRank : MergeRank} {symbols : List Symbol} {i : Nat}
    (h : bestPair mergeRank symbols = some i) :
    i + 1 < symbols.length ∧ (symbols.getD i [], symbols.getD (i + 1) []) ∈ mergeRank := by
  obtain ⟨r, hfirst⟩ := bestPair_first h
  obtain ⟨r', hrank, -⟩ := Option.map_eq_some_iff.mp hfirst.here
  constructor
  · have hlt := hfirst.high
    omega
  · rw [Std.TreeMap.mem_iff_isSome_getElem?]
    exact Option.isSome_of_eq_some hrank

theorem length_mergeAt {symbols : List Symbol} {i : Nat} (h : i + 1 < symbols.length) :
    (mergeAt symbols i).length + 1 = symbols.length :=
  length_replaceAt h

/-- Merges until no neighbours have a rank. -/
def bpe (mergeRank : MergeRank) (symbols : List Symbol) : List Symbol :=
  match _h : bestPair mergeRank symbols with
  | some i => bpe mergeRank (mergeAt symbols i)
  | none => symbols
termination_by symbols.length
decreasing_by
  have hlength := length_mergeAt (bestPair_spec _h).1
  omega

end GgufBpe

open GgufBpe

structure GgufBpeTokenizer where
  vocab : Std.TreeMap Symbol UInt32
  idToTok : List Symbol
  mergeRank : MergeRank
  byteEncoder : Vector Char 256

namespace GgufBpeTokenizer

/-- The tokenizer of a token list and a merge list. -/
def ofLists (toks : List Symbol) (merges : List (List UInt8)) : GgufBpeTokenizer where
  vocab := vocabOf toks
  idToTok := toks
  mergeRank := mergeRankOf merges
  byteEncoder := bytesToUnicode

def fromGguf (g : GgufFile) : Res GgufBpeTokenizer := do
  let toks ← readStrArray g "tokenizer.ggml.tokens"
  let merges ← readStrArray g "tokenizer.ggml.merges"
  pure (ofLists toks merges)

def vocabSize (t : GgufBpeTokenizer) : Nat :=
  t.idToTok.length

/-- The byte character of `b`, as UTF-8. -/
def byteSymbol (t : GgufBpeTokenizer) (b : UInt8) : Symbol :=
  String.utf8EncodeChar (t.byteEncoder.get ⟨b.toNat, b.toNat_lt⟩)

/-- The ids of one piece. A symbol without an entry is dropped. -/
def encodePiece (t : GgufBpeTokenizer) (piece : String) : List UInt32 :=
  (bpe t.mergeRank (piece.asBytes.map t.byteSymbol)).filterMap (t.vocab[·]?)

def encode (t : GgufBpeTokenizer) (text : String) : Res (List UInt32) := do
  let pieces ← pretokenize text
  pure (pieces.flatMap t.encodePiece)

def rev (t : GgufBpeTokenizer) : Std.TreeMap Char UInt8 :=
  (List.finRange 256).foldl (fun rev b => rev.insert (t.byteEncoder.get b) (UInt8.ofNat b.val)) ∅

/-- The bytes that a token's text stands for: none when it is not UTF-8. -/
def unspell (t : GgufBpeTokenizer) (tok : Symbol) : List UInt8 :=
  match String.ofBytes? tok with
  | some s => s.toList.filterMap (t.rev[·]?)
  | none => []

def decode (t : GgufBpeTokenizer) (ids : List UInt32) : String :=
  fromUtf8Lossy (ids.flatMap fun id =>
    match t.idToTok[id.toNat]? with
    | some tok => t.unspell tok
    | none => [])

end GgufBpeTokenizer

end VitniTensor
