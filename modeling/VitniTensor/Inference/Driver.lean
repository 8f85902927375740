import VitniTensor.Cert.Sink
import VitniTensor.Model.Config
import VitniTensor.Ops.Argmax

/-!
# Inference drivers

The two loops that drive a stateful forward function and issue a certificate: one token at
a time, or the prompt as a batch followed by one token at a time. The state of a run is the
state of the forward function beside the state of the sink.
-/

namespace VitniTensor

open Outcome Exec

structure Request where
  modelId : String
  promptTokens : List UInt32
  nNewTokens : Nat
  deriving DecidableEq, Repr

/-- The `Outcome` of the driver: the new tokens and the certificate. -/
structure Generation where
  generatedTokens : List UInt32
  cert : Cert
  deriving DecidableEq, Repr

inductive RunError (ε : Type) where
  | inference (e : Error)
  | sink (e : ε)
  deriving DecidableEq, Repr

def archString (cfg : Config) : String :=
  "llama2c:dim=" ++ toString cfg.dim ++ ",hidden=" ++ toString cfg.hiddenDim ++
  ",layers=" ++ toString cfg.nLayers ++ ",heads=" ++ toString cfg.nHeads ++
  ",kv_heads=" ++ toString cfg.nKvHeads ++ ",vocab=" ++ toString cfg.vocabSize ++
  ",seq=" ++ toString cfg.seqLen ++ ",shared=" ++ toString cfg.sharedWeights

def u32SliceToLeBytes (ts : List UInt32) : List UInt8 :=
  ts.flatMap fun t => LittleEndian.toBytes 4 t.toNat

/-- `Vec::<u32>::with_capacity`: a capacity of more than `isize::MAX` bytes panics. -/
def reserveTokens (n : Nat) : Res Unit :=
  if n * 4 < 2 ^ 63 then .ok () else .error (.panic .capacityOverflow)

/-- The declarations made before the first forward call. -/
def bindInputs (blake3 : Blake3) (cfg : Config) (weightsBlobHash : Hash) (req : Request) : CertBuilder :=
  let builder := CertBuilder.new
  let builder := builder.declareInput "model_id" req.modelId.asBytes
  let builder := builder.declareInput "weights_hash" weightsBlobHash.toList
  let archHash := blake3 (archString cfg).asBytes
  let builder := builder.declareInput "arch_hash" archHash.toList
  let builder := builder.declareInput "prompt_tokens" (u32SliceToLeBytes req.promptTokens)
  builder.declareInput "n_new_tokens"
    (LittleEndian.toBytes 4 (UInt32.ofNat req.nNewTokens).toNat)

/-- The declarations made after the last forward call. -/
def bindOutputs (blake3 : Blake3) (builder : CertBuilder) (generated : List UInt32) : CertBuilder :=
  let outputBytes := u32SliceToLeBytes generated
  let outputHash := blake3 outputBytes
  let builder := builder.declareOutput "output_tokens" outputBytes
  builder.declareOutput "output_tokens_hash" outputHash.toList

def emptyPrompt : Error := .invalidShape "prompt_tokens must not be empty"

def tooLong : Error := .invalidShape "prompt + n_new_tokens exceeds seq_len"

variable {F φ σ ε : Type} [F32 F]

/-- A stateful `forward(token, pos)`. -/
abbrev Forward (φ F : Type) := UInt32 → Nat → Exec φ Error (Tensor F)

/-- The token fed after `pos`: the prompt while it lasts, then the picked one. -/
def nextToken (prompt : List UInt32) (pos : Nat) (picked : UInt32) : Res UInt32 :=
  if pos + 1 < prompt.length then index prompt (pos + 1) else .ok picked

/-- The body of the per-token loop at `pos`, from the token fed and the tokens recorded. -/
def perTokenBody (forward : Forward φ F) (prompt : List UInt32) (pos : Nat)
    (s : UInt32 × List UInt32) : Exec φ Error (UInt32 × List UInt32) := do
  let logits ← forward s.1 pos
  let picked ← lift logits.pick
  let next ← lift (nextToken prompt pos picked)
  pure (next, if pos ≥ prompt.length then s.2 ++ [next] else s.2)

/-- The tokens of the per-token driver, with its checks. -/
def perTokenTokens (cfg : Config) (req : Request) (forward : Forward φ F) :
    Exec φ Error (List UInt32) := do
  lift (reserveTokens req.nNewTokens)
  if req.promptTokens.length = 0 then fail emptyPrompt
  else do
    let total ← lift (word (req.promptTokens.length + req.nNewTokens))
    if total > cfg.seqLen then fail tooLong
    else do
      let first ← lift (index req.promptTokens 0)
      let last ← forRange total (perTokenBody forward req.promptTokens) (first, [])
      pure last.2

/-- The body of the decode loop of the prefill driver. -/
def decodeBody (decode : Forward φ F) (promptLen i : Nat) (s : UInt32 × List UInt32) :
    Exec φ Error (UInt32 × List UInt32) := do
  let logits ← decode s.1 (promptLen + i)
  let picked ← lift logits.pick
  pure (picked, s.2 ++ [picked])

/-- The tokens of the prefill driver, with its checks. -/
def prefillTokens (cfg : Config) (req : Request) (prefill : List UInt32 → Exec φ Error (Tensor F))
    (decode : Forward φ F) : Exec φ Error (List UInt32) := do
  let promptLen := req.promptTokens.length
  if promptLen = 0 then fail emptyPrompt
  else do
    let total ← lift (word (promptLen + req.nNewTokens))
    if total > cfg.seqLen then fail tooLong
    else do
      let lastPrompt ← prefill req.promptTokens
      let cur ← lift lastPrompt.pick
      lift (reserveTokens req.nNewTokens)
      let last ← forRange req.nNewTokens (decodeBody decode promptLen) (cur, [])
      pure last.2

/-- What both drivers do around the loop that yields the tokens. -/
def issue (blake3 : Blake3) (cfg : Config) (weightsBlobHash : Hash) (req : Request)
    (sink : CertSink σ ε) (tier : UInt8) (tokens : Exec φ Error (List UInt32)) :
    Exec (φ × σ) (RunError ε) (Generation × UInt64) := do
  let builder := bindInputs blake3 cfg weightsBlobHash req
  let generated ← onFst (mapErr RunError.inference tokens)
  let builder := bindOutputs blake3 builder generated
  let (cert, certId) ← onSnd (mapErr RunError.sink (builder.finalizeWithSink blake3 sink tier))
  pure (⟨generated, cert⟩, certId)

def runQuantizedWithForward (blake3 : Blake3) (cfg : Config) (weightsBlobHash : Hash) (req : Request)
    (sink : CertSink σ ε) (tier : UInt8) (forward : Forward φ F) :
    Exec (φ × σ) (RunError ε) (Generation × UInt64) :=
  issue blake3 cfg weightsBlobHash req sink tier (perTokenTokens cfg req forward)

def runQuantizedWithPrefill (blake3 : Blake3) (cfg : Config) (weightsBlobHash : Hash) (req : Request)
    (sink : CertSink σ ε) (tier : UInt8) (prefill : List UInt32 → Exec φ Error (Tensor F))
    (decode : Forward φ F) : Exec (φ × σ) (RunError ε) (Generation × UInt64) :=
  issue blake3 cfg weightsBlobHash req sink tier (prefillTokens cfg req prefill decode)

end VitniTensor
