import VitniTensor.Lib.Rows
import VitniTensor.Model.ForwardQuantized

/-!
# The causal transformer

What the forward pass is to compute, without a cache: layer by layer, the queries, keys and
values of every position from that position's residual, then the attention of every position
to the positions up to itself. A cache row is a row of this specification, and a head of a
row is again a row of its parts.
-/

namespace VitniTensor

open Outcome Rows

variable {F : Type} [F32 F]

namespace Pass

variable (p : Pass F)

/-- The same pass at another position. -/
def atPos (pos : Nat) : Pass F :=
  { p with pos := pos }

end Pass

namespace Causal

variable (p : Pass F)

def normalized (x : Tensor F) (ws : List F) : Res (List F) := do
  let xb ← rmsNormSlice x ws p.weights.rmsEps
  tensorAsF32 xb

def linear (x : List F) (w : QuantTensor) (inFeat outFeat : Nat) : Res (List F) :=
  linearDispatch p.build x w inFeat outFeat p.regime

/-- The two indices of pair `j` in a head, by the layout. -/
def pairOf (j : Nat) : Nat × Nat :=
  if p.weights.ropeNeox then (j, j + p.headSize / 2) else (2 * j, 2 * j + 1)

/-- The pairs of one head, rotated. -/
def rotatedHead (h : Nat) (xs : List F) : Res (List F) :=
  forRange (p.headSize / 2) (fun j xs =>
    rotate (p.angle (2 * j)) (h * p.headSize + (pairOf p j).1) (h * p.headSize + (pairOf p j).2) xs) xs

/-- Rotary embedding of the `n` heads of a row. -/
def rotated (n : Nat) (xs : List F) : Res (List F) :=
  forRange n (rotatedHead p) xs

/-- Query, key and value of a position, from its residual. -/
def queryKeyValue (blk : QuantLayer F) (x : Tensor F) : Res (List F × List F × List F) := do
  let xb ← normalized p x blk.rmsAttWeight
  let q ← linear p xb blk.wq p.cfg.dim (p.cfg.nHeads * p.headSize)
  let k ← linear p xb blk.wk p.cfg.dim p.kvDim
  let v ← linear p xb blk.wv p.cfg.dim p.kvDim
  let q ← rotated p p.cfg.nHeads (addBias q blk.bq)
  let k ← rotated p p.cfg.nKvHeads (addBias k blk.bk)
  pure (q, k, addBias v blk.bv)

/-- The score of query head `h` against one key. -/
def score (q : List F) (h : Nat) (key : List F) : Res F := do
  let dot ← canonicalDot (row p.headSize q h) (row p.headSize key (h / p.kvMul)) p.headSize
  pure (F32.div dot (F32.sqrtf (F32.ofInt p.headSize)))

/-- Entry `d` of head `h`: the values weighted by `att`. -/
def valueSum (att : List F) (values : List (List F)) (h d : Nat) : Res F := do
  let column ← values.mapM fun value => index (row p.headSize value (h / p.kvMul)) d
  canonicalDot att column values.length

/-- One head: query head `h` reads kv head `h / kv_mul`. -/
def head (q : List F) (keys values : List (List F)) (h : Nat) : Res (List F) := do
  let scores ← keys.mapM (score p q h)
  let att ← softmaxInplace scores
  collectRange p.headSize (valueSum p att values h)

def attention (q : List F) (keys values : List (List F)) : Res (List F) := do
  let heads ← collectRange p.cfg.nHeads (head p q keys values)
  pure heads.flatten

/-- Attention to the keys and values given, output projection, FFN and both residuals. -/
def block (blk : QuantLayer F) (x : Tensor F) (q : List F) (keys values : List (List F)) :
    Res (Tensor F) := do
  let heads ← attention p q keys values
  let out ← linear p heads blk.wo p.cfg.dim p.cfg.dim
  let out ← vectorTensor out p.cfg.dim
  let x ← x.add out
  let xb ← normalized p x blk.rmsFfnWeight
  let gate ← linear p xb blk.w1 p.cfg.dim p.cfg.hiddenDim
  let up ← linear p xb blk.w3 p.cfg.dim p.cfg.hiddenDim
  let inner ← swiGlu gate up p.cfg.hiddenDim
  let down ← linear p inner blk.w2 p.cfg.hiddenDim p.cfg.dim
  let down ← vectorTensor down p.cfg.dim
  x.add down

def embed (token : UInt32) : Res (Tensor F) := do
  let row ← embeddingRow p.weights.tokenEmbeddingTable token.toNat p.cfg.dim
  vectorTensor row p.cfg.dim

def logits (x : Tensor F) : Res (Tensor F) := do
  let x ← normalized p x p.weights.rmsFinalWeight
  let y ← linear p x p.lmHead.1 p.cfg.dim p.cfg.vocabSize
  vectorTensor y p.cfg.vocabSize

/-! ### All positions at once -/

/-- One layer on the residuals of all positions. -/
def layer (blk : QuantLayer F) (xs : List (Tensor F)) : Res (List (Tensor F)) := do
  let qkv ← collectRange xs.length fun i => do
    let x ← index xs i
    queryKeyValue (p.atPos i) blk x
  collectRange xs.length fun i => do
    let x ← index xs i
    let own ← index qkv i
    -- causal: positions `0..=i`
    let past := qkv.take (i + 1)
    block p blk x own.1 (past.map (·.2.1)) (past.map (·.2.2))

/-- The logits at the last of the tokens. -/
def transformer (tokens : List UInt32) : Res (Tensor F) := do
  let xs ← tokens.mapM (embed p)
  let xs ← p.weights.layers.foldlM (fun xs blk => layer p blk xs) xs
  let last ← index xs (tokens.length - 1)
  logits p last

end Causal

end VitniTensor
