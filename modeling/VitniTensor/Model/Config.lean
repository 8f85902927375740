import VitniTensor.Gguf.Types

/-!
# Model dimensions

The eight numbers of a `Config`, the sizes derived from them, and their extraction from
the metadata of a model file.
-/

namespace VitniTensor

open Outcome

structure Config where
  dim : Nat
  hiddenDim : Nat
  nLayers : Nat
  nHeads : Nat
  nKvHeads : Nat
  vocabSize : Nat
  seqLen : Nat
  sharedWeights : Bool
  deriving DecidableEq, Repr

namespace Config

def headSize (cfg : Config) : Res Nat :=
  div cfg.dim cfg.nHeads

def kvDim (cfg : Config) : Res Nat := do
  let total ← word (cfg.dim * cfg.nKvHeads)
  div total cfg.nHeads

def kvMul (cfg : Config) : Res Nat :=
  div cfg.nHeads cfg.nKvHeads

/-- `read_u32_loose`: any integer type, as long as the value is not negative. -/
def readU32Loose (gguf : GgufFile) (key : String) : Res Nat :=
  match gguf.metadata[key]? with
  | some (.u32 v) => .ok v.toNat
  | some (.u64 v) => .ok v.toNat
  | some (.i32 v) => if 0 ≤ v.toInt then .ok v.toInt.toNat else
      .error (.err (.internal "gguf: numeric metadata missing or wrong type"))
  | some (.i64 v) => if 0 ≤ v.toInt then .ok v.toInt.toNat else
      .error (.err (.internal "gguf: numeric metadata missing or wrong type"))
  | _ => .error (.err (.internal "gguf: numeric metadata missing or wrong type"))

def fromGguf (gguf : GgufFile) : Res Config := do
  let arch ← match gguf.metadataStr "general.architecture" with
    | .error (.err _) => .error (.err (.internal "gguf: missing 'general.architecture' metadata"))
    | other => other
  let key (suffix : String) : String := arch ++ "." ++ suffix
  let dim ← readU32Loose gguf (key "embedding_length")
  let hiddenDim ← readU32Loose gguf (key "feed_forward_length")
  let nLayers ← readU32Loose gguf (key "block_count")
  let nHeads ← readU32Loose gguf (key "attention.head_count")
  let nKvHeads ← unwrapOr (readU32Loose gguf (key "attention.head_count_kv")) nHeads
  let seqLen ← readU32Loose gguf (key "context_length")
  let vocabSize ← match gguf.metadata["tokenizer.ggml.tokens"]? with
    | some (.array arr) => .ok arr.len.toNat
    | _ => readU32Loose gguf (key "vocab_size")
  let output ← gguf.tensor "output.weight"
  pure { dim, hiddenDim, nLayers, nHeads, nKvHeads, vocabSize, seqLen,
         sharedWeights := output.isNone }

end Config

end VitniTensor
