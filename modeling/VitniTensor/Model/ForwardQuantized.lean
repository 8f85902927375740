import VitniTensor.Lib.Exec
import VitniTensor.Lib.Fill
import VitniTensor.Model.Dispatch
import VitniTensor.Model.Observers
import VitniTensor.Model.RunState
import VitniTensor.Ops.Binary
import VitniTensor.Ops.RmsNorm

/-!
# The quantized forward pass

One decode step. It reads the configuration, the weights and the intervention plan, writes
one row of each cache in each layer, and tells its observers what it did.
-/

namespace VitniTensor

open Outcome Exec Fill

variable {F : Type} [F32 F]

/-! ### Helpers -/

def tensorAsF32 (t : Tensor F) : Res (List F) :=
  match t.storage with
  | .f32 data => .ok data
  | .u32 _ | .zeroed _ _ _ => .error (.panic .explicit)
  | .gpu _ _ _ => .error (.err (.notImplemented "tensor_as_f32"
      "GPU storage not supported in forward_quantized helpers"))

/-- `Tensor::from_f32(data, Shape::new(&[n])?)` -/
def vectorTensor (data : List F) (n : Nat) : Res (Tensor F) := do
  let shape ← Shape.new [n]
  Tensor.fromF32 data shape

/-- A bias that is too short leaves the other entries alone. -/
def addBias (v : List F) (bias : Option (List F)) : List F :=
  match bias with
  | none => v
  | some b => List.zipWith F32.add v b ++ v.drop b.length

/-- The largest value, `-∞` if there is none. -/
def maxOf (x : List F) : F :=
  x.foldl (fun max v => if F32.lt max v then v else max) F32.negInfinity

def softmaxInplace (x : List F) : Res (List F) := do
  let max := maxOf x
  let x := x.map fun v => F32.expf (F32.sub v max)
  let sum ← canonicalSum x x.length
  let inv := F32.div F32.one sum
  pure (x.map fun v => F32.mul v inv)

/-- `silu(gate) * up` -/
def swiGlu (gate up : List F) (hiddenDim : Nat) : Res (List F) :=
  collectRange hiddenDim fun i => do
    let g ← index gate i
    let silu := F32.div g (F32.add F32.one (F32.expf (F32.neg g)))
    let u ← index up i
    pure (F32.mul silu u)

/-- Rotate the pair at `i` and `j`: both are read before either is written. -/
def rotate (rot : F × F) (i j : Nat) (xs : List F) : Res (List F) := do
  let a ← index xs i
  let b ← index xs j
  let xs ← store xs i (F32.sub (F32.mul a rot.1) (F32.mul b rot.2))
  store xs j (F32.add (F32.mul a rot.2) (F32.mul b rot.1))

/-- Q for grouped-query attention. -/
def attnQOutDim (cfg : Config) : Res Nat := do
  let headSize ← cfg.headSize
  word (cfg.nHeads * headSize)

/-! ### What a step reads -/

/-- The arguments of a step that it does not write, with the sizes it derives first. -/
structure Pass (F : Type) where
  build : Build
  blake3 : Blake3
  cfg : Config
  weights : QuantizedWeights F
  plan : Option (InterventionPlan F)
  pos : Nat
  kvDim : Nat
  kvMul : Nat
  headSize : Nat
  regime : UInt8

/-- A part of a step. -/
abbrev Step (F α : Type) := Exec (RunState F × Observers F) Error α

namespace Pass

variable (p : Pass F)

/-- `pos as u32` -/
def posU32 : UInt32 :=
  UInt32.ofNat p.pos

/-- Offset in a cache of the row for position `t` in a layer. -/
def rowOff (layer t : Nat) : Nat :=
  layer * p.cfg.seqLen * p.kvDim + t * p.kvDim

/-! ### Observation -/

/-- What the plan puts in the place of `x`, if it has a vector of length `n` for it. -/
def intervene {α : Type} (layer : UInt32) (checkpoint : String) (n : Nat) (make : List F → Res α)
    (x : α) : Res α :=
  match p.plan with
  | none => .ok x
  | some plan =>
    match plan.lookup p.posU32 layer checkpoint with
    | none => .ok x
    | some replacement => if replacement.length = n then make replacement else .ok x

def recordOp (opName : String) (layer : UInt32) (paramsKey : String) (input : Res (List F))
    (output : List F) : Step F Unit := do
  let (_, observers) ← state
  match observers.recorder with
  | none => pure ()
  | some rec => do
    let input ← lift input
    update fun s => (s.1, { s.2 with
      recorder := some (rec.record p.blake3 opName layer paramsKey input output) })

/-- What the activation recorder gets. -/
def snapshot (layer : UInt32) (checkpoint : String) (tensor : Res (List F)) : Step F Unit := do
  let (_, observers) ← state
  match observers.actRecorder with
  | none => pure ()
  | some ar => do
    let tensor ← lift tensor
    update fun s => (s.1, { s.2 with
      actRecorder := some (ar.record p.blake3 p.posU32 layer checkpoint tensor) })

/-- What the lens gets. -/
def capture (layer : UInt32) (checkpoint : String) (residual : Res (List F)) : Step F Unit := do
  let (_, observers) ← state
  match observers.lens with
  | none => pure ()
  | some lc => do
    let residual ← lift residual
    update fun s => (s.1, { s.2 with lens := some (lc.push p.posU32 layer checkpoint residual) })

/-- A checkpoint of the residual stream: the intervention comes before the snapshots. -/
def checkpoint (layer : UInt32) (name : String) (x : Tensor F) : Step F (Tensor F) := do
  let x ← lift (p.intervene layer name p.cfg.dim (fun r => vectorTensor r p.cfg.dim) x)
  p.snapshot layer name (tensorAsF32 x)
  p.capture layer name (tensorAsF32 x)
  pure x

/-! ### Recorded operations -/

def rmsNorm (layer : UInt32) (key : String) (x : Tensor F) (ws : List F) : Step F (List F) := do
  let xb ← lift (rmsNormSlice x ws p.weights.rmsEps)
  let xbVec ← lift (tensorAsF32 xb)
  p.recordOp "rms_norm" layer key (tensorAsF32 x) xbVec
  pure xbVec

/-- Every linear is recorded under one name, whatever the dtype. -/
def linear (layer : UInt32) (key : String) (x : List F) (w : QuantTensor) (inFeat outFeat : Nat) :
    Step F (List F) := do
  let y ← lift (linearDispatch p.build x w inFeat outFeat p.regime)
  p.recordOp "linear_q4_0" layer key (.ok x) y
  pure y

/-! ### Attention -/

/-- Q, K and V of a layer. -/
def project (layer : Nat) (blk : QuantLayer F) (x : Tensor F) :
    Step F (List F × List F × List F) := do
  let l := UInt32.ofNat layer
  let xb ← p.rmsNorm l (PerOpRecorder.paramsKey "rms_att" layer) x blk.rmsAttWeight
  let outDim ← lift (attnQOutDim p.cfg)
  let q ← p.linear l (PerOpRecorder.paramsKey "wq" layer) xb blk.wq p.cfg.dim outDim
  let k ← p.linear l (PerOpRecorder.paramsKey "wk" layer) xb blk.wk p.cfg.dim p.kvDim
  let v ← p.linear l (PerOpRecorder.paramsKey "wv" layer) xb blk.wv p.cfg.dim p.kvDim
  pure (addBias q blk.bq, addBias k blk.bk, addBias v blk.bv)

/-- K, not yet rotated, and V go to their row of the caches. -/
def cacheRow (layer : Nat) (k v : List F) : Step F Unit := do
  let off := p.rowOff layer p.pos
  let (run, _) ← state
  let keys ← lift (copyInto run.keyCache off (off + p.kvDim) k)
  update fun s => ({ s.1 with keyCache := keys }, s.2)
  let values ← lift (copyInto run.valueCache off (off + p.kvDim) v)
  update fun s => ({ s.1 with valueCache := values }, s.2)

/-- Cosine and sine for index `num` of a head. -/
def angle (num : Nat) : F × F :=
  let freq := F32.div F32.one
    (F32.powf p.weights.ropeTheta (F32.div (F32.ofInt num) (F32.ofInt p.headSize)))
  let val := F32.mul (F32.ofInt p.pos) freq
  (F32.cosf val, F32.sinf val)

/-- The split-half layout: `n` heads of the buffer `xs`, from `base` on. -/
def ropeNeox (n base : Nat) (xs : List F) : Res (List F) :=
  let half := p.headSize / 2
  forRange n (fun h xs =>
    forRange half (fun j xs =>
      rotate (p.angle (2 * j)) (base + h * p.headSize + j) (base + h * p.headSize + j + half) xs) xs) xs

/-- One iteration of the interleaved layout, at `i = 2 * m`: the pair of `q` and, while it
lies in `kv_dim`, the pair of the cached key. -/
def ropePair (off m : Nat) (s : List F × List F) : Res (List F × List F) := do
  let i := 2 * m
  let headDimIdx ← rem i p.headSize
  let q ← rotate (p.angle headDimIdx) i (i + 1) s.1
  if i < p.kvDim then do
    let keys ← rotate (p.angle headDimIdx) (off + i) (off + i + 1) s.2
    pure (q, keys)
  else pure (q, s.2)

/-- Rotation of `q` and of the key at offset `off` of the key cache. -/
def ropeBoth (off : Nat) (q keys : List F) : Res (List F × List F) :=
  if p.weights.ropeNeox then do
    let q ← p.ropeNeox p.cfg.nHeads 0 q
    let nKv ← div p.kvDim p.headSize
    let keys ← p.ropeNeox nKv off keys
    pure (q, keys)
  else forRange ((p.cfg.dim + 1) / 2) (p.ropePair off) (q, keys)

def rope (layer : Nat) (q : List F) : Step F (List F) := do
  let (run, _) ← state
  let (q, keys) ← lift (p.ropeBoth (p.rowOff layer p.pos) q run.keyCache)
  update fun s => ({ s.1 with keyCache := keys }, s.2)
  pure q

/-- The score of head `h` against the key of position `t`. -/
def score (layer : Nat) (q keys : List F) (h kvHead t : Nat) : Res F := do
  let kOff := p.rowOff layer t + kvHead * p.headSize
  let kSlice ← slice keys kOff (kOff + p.headSize)
  let qSlice ← slice q (h * p.headSize) (h * p.headSize + p.headSize)
  let score ← canonicalDot qSlice kSlice p.headSize
  pure (F32.div score (F32.sqrtf (F32.ofInt p.headSize)))

/-- The sum over positions of column `d` of the values, weighted by `att`. -/
def valueSum (layer : Nat) (att values : List F) (kvHead d : Nat) : Res F := do
  let vcol ← collectRange (p.pos + 1) fun t =>
    index values (p.rowOff layer t + kvHead * p.headSize + d)
  canonicalDot att vcol (p.pos + 1)

/-- One head, written to its part of `out`. -/
def attendHead (layer : Nat) (q keys values : List F) (h : Nat) (out : List F) : Res (List F) := do
  let kvHead ← div h p.kvMul
  let att ← collectRange (p.pos + 1) (p.score layer q keys h kvHead)
  let att ← softmaxInplace att
  forRange p.headSize (storeAt (p.valueSum layer att values kvHead) (h * p.headSize)) out

def attend (layer : Nat) (q keys values : List F) : Res (List F) := do
  let xbOut ← zeroVec p.cfg.dim
  forRange p.cfg.nHeads (p.attendHead layer q keys values) xbOut

/-! ### Layers -/

/-- Output projection and residual. -/
def attnOutput (layer : Nat) (blk : QuantLayer F) (x : Tensor F) (xbOut : List F) :
    Step F (Tensor F) := do
  let l := UInt32.ofNat layer
  p.capture l "pre_wo" (.ok xbOut)
  let xb2Vec ← p.linear l (PerOpRecorder.paramsKey "wo" layer) xbOut blk.wo p.cfg.dim p.cfg.dim
  let xb2 ← lift (vectorTensor xb2Vec p.cfg.dim)
  let x ← lift (x.add xb2)
  p.checkpoint l "post_attn" x

/-- The FFN block and its residual. -/
def feedForward (layer : Nat) (blk : QuantLayer F) (x : Tensor F) : Step F (Tensor F) := do
  let l := UInt32.ofNat layer
  let xb ← p.rmsNorm l (PerOpRecorder.paramsKey "rms_ffn" layer) x blk.rmsFfnWeight
  let gate ← p.linear l (PerOpRecorder.paramsKey "w1" layer) xb blk.w1 p.cfg.dim p.cfg.hiddenDim
  let up ← p.linear l (PerOpRecorder.paramsKey "w3" layer) xb blk.w3 p.cfg.dim p.cfg.hiddenDim
  let inner ← lift (swiGlu gate up p.cfg.hiddenDim)
  let downVec ← p.linear l (PerOpRecorder.paramsKey "w2" layer) inner blk.w2 p.cfg.hiddenDim p.cfg.dim
  let down ← lift (vectorTensor downVec p.cfg.dim)
  let x ← lift (x.add down)
  p.checkpoint l "post_ffn" x

def layerStep (layer : Nat) (x : Tensor F) : Step F (Tensor F) := do
  let blk ← lift (index p.weights.layers layer)
  let (q, k, v) ← p.project layer blk x
  p.cacheRow layer k v
  let q ← p.rope layer q
  let (run, _) ← state
  let xbOut ← lift (p.attend layer q run.keyCache run.valueCache)
  let x ← p.attnOutput layer blk x xbOut
  p.feedForward layer blk x

/-! ### The ends -/

def embed (token : UInt32) : Step F (Tensor F) := do
  let row ← lift (embeddingRow p.weights.tokenEmbeddingTable token.toNat p.cfg.dim)
  let x ← lift (vectorTensor row p.cfg.dim)
  p.checkpoint noLayer "post_embed" x

/-- The head of the model, tied to the embedding when it has none of its own. -/
def lmHead : QuantTensor × String :=
  match p.weights.wcls with
  | some wcls => (wcls, "wcls")
  | none => (p.weights.tokenEmbeddingTable, "token_embd")

def logits (x : Tensor F) : Step F (Tensor F) := do
  let xFinal ← p.rmsNorm noLayer "rms_final" x p.weights.rmsFinalWeight
  let xFinal ← lift (p.intervene noLayer "pre_lm_head" p.cfg.dim .ok xFinal)
  p.snapshot noLayer "pre_lm_head" (.ok xFinal)
  p.capture noLayer "pre_lm_head" (.ok xFinal)
  let y ← p.linear noLayer p.lmHead.2 xFinal p.lmHead.1 p.cfg.dim p.cfg.vocabSize
  let y ← lift (p.intervene noLayer "post_lm_head" p.cfg.vocabSize .ok y)
  p.snapshot noLayer "post_lm_head" (.ok y)
  lift (vectorTensor y p.cfg.vocabSize)

def forward (token : UInt32) : Step F (Tensor F) := do
  let x ← p.embed token
  let x ← forRange p.cfg.nLayers p.layerStep x
  p.logits x

end Pass

/-! ### Entry points -/

/-- The sizes that a step derives before anything else. -/
def passOf (build : Build) (blake3 : Blake3) (cfg : Config) (weights : QuantizedWeights F)
    (plan : Option (InterventionPlan F)) (pos : Nat) (regime : UInt8) : Res (Pass F) := do
  let kvDim ← cfg.kvDim
  let kvMul ← cfg.kvMul
  let headSize ← cfg.headSize
  pure { build, blake3, cfg, weights, plan, pos, kvDim, kvMul, headSize, regime }

def stepWithRecorders (build : Build) (blake3 : Blake3) (cfg : Config) (weights : QuantizedWeights F)
    (plan : Option (InterventionPlan F)) (token : UInt32) (pos : Nat) : Step F (Tensor F) := do
  let (run, _) ← state
  let p ← lift (passOf build blake3 cfg weights plan pos run.regime)
  p.forward token

/-- A computation with observers, run without any. -/
def unobserved {α : Type} (m : Step F α) : Exec (RunState F) Error α :=
  ExceptT.mk fun s => ((m.eval (s, Observers.none)).1, (m.eval (s, Observers.none)).2.1)

/-- `step`: no observers and no plan. The hash function is not called then. -/
def step (build : Build) (blake3 : Blake3) (cfg : Config) (weights : QuantizedWeights F)
    (token : UInt32) (pos : Nat) : Exec (RunState F) Error (Tensor F) :=
  unobserved (stepWithRecorders build blake3 cfg weights none token pos)

end VitniTensor
