import VitniTensor.Tokenizer.Lossless
import VitniTensor.Tokenizer.PackedArrays
import VitniTensor.Tokenizer.SpmLossless

/-!
# The tokenizers of a file

A tokenizer is made of the arrays under its keys of the file. In an accepted file these hold the
strings and the scores that were packed, so that what is known of a tokenizer of some lists is
known of the tokenizer of the file.
-/

namespace VitniTensor

open Outcome GgufFile

variable {g : GgufFile} {tokenArr : GgufArray} {toks : List (List UInt8)}

namespace GgufBpeTokenizer

open GgufBpe

variable {mergeArr : GgufArray} {merges : List (List UInt8)}

theorem fromGguf_eq (htoks : HasStrings g "tokenizer.ggml.tokens" tokenArr toks)
    (hmerges : HasStrings g "tokenizer.ggml.merges" mergeArr merges) : fromGguf g = .ok (ofLists toks merges) := by
  obtain ⟨-, -, htokens⟩ := htoks.read
  obtain ⟨-, -, hpairs⟩ := hmerges.read
  unfold fromGguf
  rw [htokens, ok_bind, hpairs, ok_bind]
  rfl

/-- An accepted file with both arrays has the tokenizer of what they pack. -/
theorem fromGguf_of_parsed {buf : List UInt8} (small : buf.length < 2 ^ 63) (accepted : parsed buf = .ok g)
    (htokens : g.metadata["tokenizer.ggml.tokens"]? = some (.array tokenArr))
    (hmerges : g.metadata["tokenizer.ggml.merges"]? = some (.array mergeArr))
    (hstrings : tokenArr.elemType = .string ∧ mergeArr.elemType = .string)
    (hfits : tokenArr.len.toNat * 24 < 2 ^ 63 ∧ mergeArr.len.toNat * 24 < 2 ^ 63) :
    ∃ toks merges, fromGguf g = .ok (ofLists toks merges) ∧
      HasStrings g "tokenizer.ggml.tokens" tokenArr toks ∧ HasStrings g "tokenizer.ggml.merges" mergeArr merges := by
  obtain ⟨toks, htoks⟩ := hasStrings_of_parsed small accepted htokens hstrings.1 hfits.1
  obtain ⟨merges, hpairs⟩ := hasStrings_of_parsed small accepted hmerges hstrings.2 hfits.2
  exact ⟨toks, merges, fromGguf_eq htoks hpairs, htoks, hpairs⟩

/-- The tokenizer of a file gives back every text that is cut into pieces, where the file lists the
byte characters and what its merges make. -/
theorem fromGguf_lossless (htoks : HasStrings g "tokenizer.ggml.tokens" tokenArr toks)
    (hmerges : HasStrings g "tokenizer.ggml.merges" mergeArr merges)
    (hbytes : ∀ b, Listed toks ((ofLists toks merges).byteSymbol b))
    (hpairs : ∀ m ∈ merges, ∀ pair, listedPair m = some pair → Listed toks (pair.1 ++ pair.2)) {text : String}
    {pieces : List String} (h : pretokenize text = .ok pieces) :
    ∃ t ids, fromGguf g = .ok t ∧ t.encode text = .ok ids ∧ t.decode ids = text :=
  ⟨_, _, fromGguf_eq htoks hmerges, encode_pieces _ h, decode_pieces hbytes hpairs h⟩

end GgufBpeTokenizer

namespace GgufSpmTokenizer

open GgufSpm

variable {scores : List Binary32}

theorem fromGguf_eq (htoks : HasStrings g "tokenizer.ggml.tokens" tokenArr toks)
    (hscores : readF32Array g "tokenizer.ggml.scores" = .ok scores) :
    fromGguf g =
      if toks.length ≠ scores.length then err (.invalidShape "gguf tokenizer: tokens/scores length mismatch")
      else .ok (ofLists toks scores) := by
  obtain ⟨-, htokens, -⟩ := htoks.read
  unfold fromGguf
  rw [htokens, ok_bind, hscores, ok_bind]
  rfl

/-- An accepted file with both arrays has the tokenizer of what they pack, if there are as many
scores as tokens, and is refused otherwise. -/
theorem fromGguf_of_parsed {buf : List UInt8} {scoreArr : GgufArray} (small : buf.length < 2 ^ 63)
    (accepted : parsed buf = .ok g) (htokens : g.metadata["tokenizer.ggml.tokens"]? = some (.array tokenArr))
    (hscores : g.metadata["tokenizer.ggml.scores"]? = some (.array scoreArr))
    (hstring : tokenArr.elemType = .string) (hfloat : scoreArr.elemType = .float32)
    (hfits : tokenArr.len.toNat * 24 < 2 ^ 63) :
    ∃ toks scores, HasStrings g "tokenizer.ggml.tokens" tokenArr toks ∧ packFloats scores = scoreArr.data ∧
      fromGguf g =
        if tokenArr.len ≠ scoreArr.len then err (.invalidShape "gguf tokenizer: tokens/scores length mismatch")
        else .ok (ofLists toks scores) := by
  obtain ⟨toks, htoks⟩ := hasStrings_of_parsed small accepted htokens hstring hfits
  obtain ⟨scores, hread, hcount, hpacked⟩ := readF32Array_of_parsed small accepted hscores hfloat
  refine ⟨toks, scores, htoks, hpacked, ?_⟩
  rw [fromGguf_eq htoks hread, htoks.count, hcount]
  simp only [ne_eq, UInt64.toNat_inj]

/-- The tokenizer of a file gives back every text without a mark, where the file lists the byte
tokens and its entries leave the escapes alone. -/
theorem fromGguf_lossless (htoks : HasStrings g "tokenizer.ggml.tokens" tokenArr toks)
    (hread : readF32Array g "tokenizer.ggml.scores" = .ok scores) (hscores : scores.length = toks.length)
    (hsmall : toks.length ≤ 2 ^ 32) (hbytes : HasByteTokens toks) {text : String} (hmark : '\u2581' ∉ text.toList)
    (hstay : EscapesStay toks text) :
    ∃ t ids, fromGguf g = .ok t ∧ t.encode text false = .ok ids ∧ t.decode ids = .ok text := by
  obtain ⟨ids, hids, hstands⟩ := standsForText_merged hscores hsmall hbytes hstay
  refine ⟨_, ids, ?_, hids, hstands.decode hmark⟩
  rw [fromGguf_eq htoks hread, if_neg (not_not.mpr hscores.symm)]

end GgufSpmTokenizer

end VitniTensor
