import VitniTensor.Lib.Exec
import VitniTensor.Lib.Fill
import VitniTensor.Model.RunState
import VitniTensor.Ops.Binary
import VitniTensor.Ops.Matmul
import VitniTensor.Ops.RmsNorm
import VitniTensor.Ops.Softmax
import VitniTensor.Ops.Unary

/-!
# The F32 forward pass

One decode step on plain weights, with the accelerator of the CPU. It goes through tensors:
weights are sliced out of the flat arrays and transposed, and the products are matrix products.
Scores and value sums are plain loops over the caches.
-/

namespace VitniTensor

open Outcome Exec Fill

variable {F : Type} [F32 F]

/-- The sections of a llama2.c blob, each flat over its layers. -/
structure Weights (F : Type) where
  tokenEmbeddingTable : List F
  rmsAttWeight : List F
  wq : List F
  wk : List F
  wv : List F
  wo : List F
  rmsFfnWeight : List F
  w1 : List F
  w2 : List F
  w3 : List F
  rmsFinalWeight : List F
  wcls : List F

/-- `1e-5` -/
def rmsEpsilon : F := F32.ofBits 0x3727C5AC

/-- `10000.0` -/
def ropeBase : F := F32.ofBits 0x461C4000

/-- The arguments of a step that it does not write, with the sizes it derives first. -/
structure DensePass (F : Type) where
  cfg : Config
  weights : Weights F
  pos : Nat
  kvDim : Nat
  kvMul : Nat
  headSize : Nat

/-- A part of a step. -/
abbrev DenseStep (F α : Type) := Exec (RunState F) Error α

namespace DensePass

/-! ### Helpers -/

def sliceToTensor (data : List F) (dims : List Nat) : Res (Tensor F) := do
  let shape ← Shape.new dims
  Tensor.fromF32 data shape

omit [F32 F] in
theorem sliceToTensor_dims {data : List F} {dims : List Nat} {t : Tensor F} (h : sliceToTensor data dims = .ok t) :
    t.shape.dims = dims := by
  obtain ⟨shape, hshape, h⟩ := bind_eq_ok.mp h
  unfold Shape.new at hshape
  split at hshape
  next => cases hshape
  next =>
    cases hshape
    rw [Tensor.fromF32_shape h]

def tensorAsF32 (t : Tensor F) : Res (List F) :=
  match t.storage with
  | .f32 data => .ok data
  | .u32 _ | .zeroed _ _ _ => .error (.panic .explicit)
  | .gpu _ _ _ => .error (.err (.notImplemented "tensor_as_f32" "GPU storage not supported here"))

/-- `[dim]` as `[1, dim]` -/
def xbTo2d (t : Tensor F) (dim : Nat) : Res (Tensor F) := do
  let data ← tensorAsF32 t
  sliceToTensor data [1, dim]

omit [F32 F] in
theorem xbTo2d_dims {t z : Tensor F} {dim : Nat} (h : xbTo2d t dim = .ok z) : z.shape.dims = [1, dim] := by
  obtain ⟨data, -, h⟩ := bind_eq_ok.mp h
  exact sliceToTensor_dims h

/-- `[1, n]` or `[n]` as `[n]` -/
def squeezeTo1d (t : Tensor F) (n : Nat) : Res (Tensor F) := do
  let data ← tensorAsF32 t
  sliceToTensor data [n]

/-- Row `r` of the source becomes a column. -/
def transposeRow (src : List F) (rows cols r : Nat) (out : List F) : Res (List F) :=
  forRange cols (fun c out => do
    let v ← index src (r * cols + c)
    store out (c * rows + r) v) out

/-- The loops of `transpose_2d`. -/
def transposeFlat (src : List F) (rows cols : Nat) : Res (List F) := do
  let cells ← word (rows * cols)
  let out ← zeroVec cells
  forRange rows (transposeRow src rows cols) out

def transpose2d (t : Tensor F) (rows cols : Nat) : Res (Tensor F) := do
  let src ← tensorAsF32 t
  let out ← transposeFlat src rows cols
  sliceToTensor out [cols, rows]

theorem transpose2d_dims {t z : Tensor F} {rows cols : Nat} (h : transpose2d t rows cols = .ok z) :
    z.shape.dims = [cols, rows] ∧ rows * cols < wordSize := by
  obtain ⟨src, -, h⟩ := bind_eq_ok.mp h
  obtain ⟨out, hout, h⟩ := bind_eq_ok.mp h
  obtain ⟨cells, hcells, -⟩ := bind_eq_ok.mp hout
  exact ⟨sliceToTensor_dims h, (word_eq_ok.mp hcells).1⟩

/-- The part of layer `layer` of a flat section with `n` numbers per layer. -/
def layerSlice (ws : List F) (layer n : Nat) : Res (List F) :=
  slice ws (layer * n) ((layer + 1) * n)

/-- `x @ W^T` for a weight matrix stored as `[out_dim, in_dim]`. -/
def project (x : Tensor F) (w : List F) (outDim inDim : Nat) : Res (Tensor F) := do
  let w ← sliceToTensor w [outDim, inDim]
  let wT ← transpose2d w outDim inDim
  x.matmul wT

/-- A pre-norm with the weights `w`. -/
def preNorm (x : Tensor F) (w : List F) (dim : Nat) : Res (Tensor F) := do
  let w ← sliceToTensor w [dim]
  x.rmsNorm w rmsEpsilon

/-- `acc += a[i] * b[j]` -/
def addProduct (a b : List F) (i j : Nat) (acc : F) : Res F := do
  let x ← index a i
  let y ← index b j
  pure (F32.add acc (F32.mul x y))

variable (p : DensePass F)

/-- Offset in a cache of the row for position `t` in a layer. -/
def rowOff (layer t : Nat) : Nat :=
  layer * p.cfg.seqLen * p.kvDim + t * p.kvDim

/-! ### Attention -/

/-- K, not yet rotated, and V go to their row of the caches. -/
def cacheRow (layer : Nat) (k v : Tensor F) : DenseStep F Unit := do
  let off := p.rowOff layer p.pos
  let kData ← lift (tensorAsF32 k)
  let vData ← lift (tensorAsF32 v)
  let run ← state
  let keys ← lift (copyInto run.keyCache off (off + p.kvDim) kData)
  update fun s => { s with keyCache := keys }
  let values ← lift (copyInto run.valueCache off (off + p.kvDim) vData)
  update fun s => { s with valueCache := values }

/-- Cosine and sine for index `num` of a head. -/
def angle (num : Nat) : F × F :=
  let freq := F32.div F32.one
    (F32.powf ropeBase (F32.div (F32.ofInt num) (F32.ofInt p.headSize)))
  let val := F32.mul (F32.ofInt p.pos) freq
  (F32.cosf val, F32.sinf val)

/-- Rotate the pair at `i` and `i + 1`. -/
def rotatePair (rot : F × F) (i : Nat) (xs : List F) : Res (List F) := do
  let x0 ← index xs i
  let x1 ← index xs (i + 1)
  let xs ← store xs i (F32.sub (F32.mul x0 rot.1) (F32.mul x1 rot.2))
  store xs (i + 1) (F32.add (F32.mul x0 rot.2) (F32.mul x1 rot.1))

/-- One iteration of the rotation, at `i = 2 * m`: the pair of `q` and, while it lies in
`kv_dim`, the pair of the cached key. -/
def ropePair (off m : Nat) (s : List F × List F) : Res (List F × List F) := do
  let i := 2 * m
  let headDimIdx ← rem i p.headSize
  let q ← rotatePair (p.angle headDimIdx) i s.1
  if i < p.kvDim then do
    let keys ← rotatePair (p.angle headDimIdx) (off + i) s.2
    pure (q, keys)
  else pure (q, s.2)

def rope (layer : Nat) (q : Tensor F) : DenseStep F (List F) := do
  let qBuf ← lift (tensorAsF32 q)
  let run ← state
  let (qBuf, keys) ← lift
    (forRange ((p.cfg.dim + 1) / 2) (p.ropePair (p.rowOff layer p.pos)) (qBuf, run.keyCache))
  update fun s => { s with keyCache := keys }
  pure qBuf

/-- The score of head `h` against the key of position `t`, added up in order. -/
def score (layer : Nat) (q keys : List F) (h t : Nat) : Res F := do
  let kvHead ← div h p.kvMul
  let kOff := p.rowOff layer t + kvHead * p.headSize
  let score ← forRange p.headSize (fun d => addProduct q keys (h * p.headSize + d) (kOff + d)) F32.zero
  pure (F32.div score (F32.sqrtf (F32.ofInt p.headSize)))

/-- `xb_out[xb_off + d] += a * value` -/
def addValue (values : List F) (vOff xbOff : Nat) (a : F) (d : Nat) (out : List F) : Res (List F) := do
  let x ← index out (xbOff + d)
  let v ← index values (vOff + d)
  store out (xbOff + d) (F32.add x (F32.mul a v))

/-- The value of position `t`, weighted, added to the part of head `h`. -/
def addPosition (layer : Nat) (probs values : List F) (h t : Nat) (out : List F) : Res (List F) := do
  let kvHead ← div h p.kvMul
  let a ← index probs t
  let vOff := p.rowOff layer t + kvHead * p.headSize
  forRange p.headSize (addValue values vOff (h * p.headSize) a) out

/-- One head, written to its part of `out`. -/
def attendHead (layer : Nat) (q keys values : List F) (h : Nat) (out : List F) : Res (List F) := do
  let att ← collectRange (p.pos + 1) (p.score layer q keys h)
  let att ← sliceToTensor att [p.pos + 1]
  let probs ← att.softmaxLastDim
  let probs ← tensorAsF32 probs
  forRange (p.pos + 1) (p.addPosition layer probs values h) out

def attend (layer : Nat) (q keys values : List F) : Res (List F) := do
  let out ← zeroVec p.cfg.dim
  forRange p.cfg.nHeads (p.attendHead layer q keys values) out

/-! ### Layers -/

/-- Q, K and V of a layer. -/
def queryKeyValue (layer : Nat) (x : Tensor F) : Res (Tensor F × Tensor F × Tensor F) := do
  let rmsW ← layerSlice p.weights.rmsAttWeight layer p.cfg.dim
  let xb ← preNorm x rmsW p.cfg.dim
  let xb2d ← xbTo2d xb p.cfg.dim
  let wq ← layerSlice p.weights.wq layer (p.cfg.dim * p.cfg.dim)
  let q ← project xb2d wq p.cfg.dim p.cfg.dim
  let wk ← layerSlice p.weights.wk layer (p.cfg.dim * p.kvDim)
  let k ← project xb2d wk p.kvDim p.cfg.dim
  let wv ← layerSlice p.weights.wv layer (p.cfg.dim * p.kvDim)
  let v ← project xb2d wv p.kvDim p.cfg.dim
  pure (q, k, v)

/-- Output projection and residual. -/
def attnOutput (layer : Nat) (x : Tensor F) (xbOut : List F) : Res (Tensor F) := do
  let xbAttn ← sliceToTensor xbOut [1, p.cfg.dim]
  let wo ← layerSlice p.weights.wo layer (p.cfg.dim * p.cfg.dim)
  let xb2 ← project xbAttn wo p.cfg.dim p.cfg.dim
  let xb2 ← squeezeTo1d xb2 p.cfg.dim
  x.add xb2

/-- The FFN sublayer and its residual. -/
def feedForward (layer : Nat) (x : Tensor F) : Res (Tensor F) := do
  let rmsFfn ← layerSlice p.weights.rmsFfnWeight layer p.cfg.dim
  let xb ← preNorm x rmsFfn p.cfg.dim
  let xb2d ← xbTo2d xb p.cfg.dim
  let w1 ← layerSlice p.weights.w1 layer (p.cfg.dim * p.cfg.hiddenDim)
  let w1 ← sliceToTensor w1 [p.cfg.hiddenDim, p.cfg.dim]
  let w1T ← transpose2d w1 p.cfg.hiddenDim p.cfg.dim
  let w3 ← layerSlice p.weights.w3 layer (p.cfg.dim * p.cfg.hiddenDim)
  let w3 ← sliceToTensor w3 [p.cfg.hiddenDim, p.cfg.dim]
  let w3T ← transpose2d w3 p.cfg.hiddenDim p.cfg.dim
  let gate ← xb2d.matmul w1T
  let up ← xb2d.matmul w3T
  let gateAct ← gate.silu
  let inner ← gateAct.mul up
  let w2 ← layerSlice p.weights.w2 layer (p.cfg.dim * p.cfg.hiddenDim)
  let down ← project inner w2 p.cfg.dim p.cfg.hiddenDim
  let down ← squeezeTo1d down p.cfg.dim
  x.add down

def layerStep (layer : Nat) (x : Tensor F) : DenseStep F (Tensor F) := do
  let (q, k, v) ← lift (p.queryKeyValue layer x)
  p.cacheRow layer k v
  let q ← p.rope layer q
  let run ← state
  let xbOut ← lift (p.attend layer q run.keyCache run.valueCache)
  let x ← lift (p.attnOutput layer x xbOut)
  lift (p.feedForward layer x)

/-! ### The ends -/

/-- The row of the embedding table for `token`. -/
def embed (token : UInt32) : Res (Tensor F) := do
  let emb ← layerSlice p.weights.tokenEmbeddingTable token.toNat p.cfg.dim
  sliceToTensor emb [p.cfg.dim]

def logits (x : Tensor F) : Res (Tensor F) := do
  let xFinal ← preNorm x p.weights.rmsFinalWeight p.cfg.dim
  let xFinal2d ← xbTo2d xFinal p.cfg.dim
  let logits ← project xFinal2d p.weights.wcls p.cfg.vocabSize p.cfg.dim
  squeezeTo1d logits p.cfg.vocabSize

def forward (token : UInt32) : DenseStep F (Tensor F) := do
  let x ← lift (p.embed token)
  let x ← forRange p.cfg.nLayers p.layerStep x
  lift (p.logits x)

/-- The sizes that a step derives before anything else. -/
def of (cfg : Config) (weights : Weights F) (pos : Nat) : Res (DensePass F) := do
  let kvDim ← cfg.kvDim
  let kvMul ← cfg.kvMul
  let headSize ← cfg.headSize
  pure { cfg, weights, pos, kvDim, kvMul, headSize }

/-- `forward::step` -/
def step (cfg : Config) (weights : Weights F) (token : UInt32) (pos : Nat) :
    Exec (RunState F) Error (Tensor F) := do
  let p ← lift (of cfg weights pos)
  p.forward token

end DensePass

end VitniTensor
