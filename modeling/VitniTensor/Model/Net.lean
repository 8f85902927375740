import VitniTensor.Model.CachedStep
import VitniTensor.Model.Rotation
import VitniTensor.Model.TiedRows
import VitniTensor.Quant.Canonical

/-!
# A decoder on lists

What every forward pass of the repository computes on float weights: a decoder-only transformer as a function
on lists of floats, without tensors, loops or caches. What the passes do differently is a parameter: the
norm, the activation, the scale of the embedding, and the reduction inside attention.
-/

namespace VitniTensor

open Rows Rope

variable {F : Type} [F32 F]

/-- How the terms `0..n` are added up. -/
abbrev Reduction (F : Type) := (Nat → F) → Nat → F

/-- In order, from zero. -/
def serialValue (v : Nat → F) (n : Nat) : F :=
  (List.range n).foldl (fun acc i => F32.add acc (v i)) F32.zero

theorem serialValue_succ (v : Nat → F) (n : Nat) : serialValue v (n + 1) = F32.add (serialValue v n) (v n) := by
  unfold serialValue
  rw [List.range_succ, List.foldl_append]
  rfl

def softmaxValue (xs : List F) : List F :=
  let exps := xs.map fun v => F32.expf (F32.sub v (maxOf xs))
  let inv := F32.div F32.one (canonicalValue (fun i => exps.getD i F32.zero) xs.length)
  exps.map fun v => F32.mul v inv

@[simp] theorem length_softmaxValue (xs : List F) : (softmaxValue xs).length = xs.length := by
  unfold softmaxValue
  simp

/-- One layer; a matrix has a row for each output. -/
structure Block (F : Type) where
  rmsAtt : List F
  wq : List F
  wk : List F
  wv : List F
  wo : List F
  rmsFfn : List F
  w1 : List F
  w2 : List F
  w3 : List F

structure Net (F : Type) where
  dim : Nat
  hiddenDim : Nat
  nHeads : Nat
  headSize : Nat
  kvMul : Nat
  kvDim : Nat
  vocabSize : Nat
  embedding : List F
  blocks : List (Block F)
  rmsFinal : List F
  head : List F
  /-- Of an entry of the embedding. -/
  scale : F → F
  /-- Of a vector, with weights. -/
  norm : List F → List F → List F
  act : F → F
  /-- Cosine and sine for pair `c` at a position. -/
  angle : Nat → Nat → F × F

/-- The weights of a layer have the sizes that the dimensions say. -/
structure Block.Sized (blk : Block F) (m : Net F) : Prop where
  rmsAtt : blk.rmsAtt.length = m.dim
  wq : blk.wq.length = m.dim * m.dim
  wk : blk.wk.length = m.kvDim * m.dim
  wv : blk.wv.length = m.kvDim * m.dim
  wo : blk.wo.length = m.dim * m.dim
  rmsFfn : blk.rmsFfn.length = m.dim
  w1 : blk.w1.length = m.hiddenDim * m.dim
  w2 : blk.w2.length = m.dim * m.hiddenDim
  w3 : blk.w3.length = m.hiddenDim * m.dim

structure Net.Sized (m : Net F) : Prop where
  heads : m.dim = m.nHeads * m.headSize
  dim : 0 < m.dim
  norm : ∀ {ws xs : List F}, ws.length = m.dim → xs.length = m.dim → (m.norm ws xs).length = m.dim
  embedding : m.embedding.length = m.vocabSize * m.dim
  blocks : ∀ blk ∈ m.blocks, blk.Sized m
  rmsFinal : m.rmsFinal.length = m.dim
  head : m.head.length = m.vocabSize * m.dim

namespace Net

variable (reduce : Reduction F) (m : Net F)

/-! ### The parts of a step -/

/-- Query, key and value of a position. -/
def queryKeyValue (pos : Nat) (blk : Block F) (x : List F) : List F × KeyValue F :=
  let xb := m.norm blk.rmsAtt x
  (interleaved (m.angle pos) (rowProducts xb blk.wq m.dim m.dim),
    interleaved (m.angle pos) (rowProducts xb blk.wk m.dim m.kvDim), rowProducts xb blk.wv m.dim m.kvDim)

/-- The score of query head `h` against one key. -/
def score (q : List F) (h : Nat) (key : List F) : F :=
  let terms := productOf (row m.headSize q h) (row m.headSize key (h / m.kvMul))
  F32.div (reduce terms m.headSize) (F32.sqrtf (F32.ofInt m.headSize))

/-- What head `h` reads of the values at its entry `d`. -/
def valueColumn (values : List (List F)) (h d : Nat) : List F :=
  values.map fun value => (row m.headSize value (h / m.kvMul)).getD d F32.zero

/-- Entry `d` of head `h`: the values weighted by `att`. -/
def valueSum (att : List F) (values : List (List F)) (h d : Nat) : F :=
  reduce (productOf att (m.valueColumn values h d)) values.length

def attentionHead (q : List F) (keys values : List (List F)) (h : Nat) : List F :=
  let att := softmaxValue (keys.map (m.score reduce q h))
  (List.range m.headSize).map (m.valueSum reduce att values h)

def attention (q : List F) (keys values : List (List F)) : List F :=
  ((List.range m.nHeads).map (m.attentionHead reduce q keys values)).flatten

def residual (x y : List F) : List F :=
  List.zipWith F32.add x y

/-- Output projection and residual. -/
def attnOutput (blk : Block F) (x heads : List F) : List F :=
  residual x (rowProducts heads blk.wo m.dim m.dim)

/-- `act gate * up` -/
def gated (gate up : List F) : List F :=
  List.zipWith (fun g u => F32.mul (m.act g) u) gate up

/-- The FFN block and its residual. -/
def feedForward (blk : Block F) (x : List F) : List F :=
  let xb := m.norm blk.rmsFfn x
  let inner := m.gated (rowProducts xb blk.w1 m.dim m.hiddenDim) (rowProducts xb blk.w3 m.dim m.hiddenDim)
  residual x (rowProducts inner blk.w2 m.hiddenDim m.dim)

/-- One layer: the residual after it, and the row that it writes. -/
def layerOut (pos : Nat) (past : List (List F) × List (List F)) (blk : Block F) (x : List F) : List F × KeyValue F :=
  let qkv := m.queryKeyValue pos blk x
  let heads := m.attention reduce qkv.1 (past.1 ++ [qkv.2.1]) (past.2 ++ [qkv.2.2])
  (m.feedForward blk (m.attnOutput blk x heads), qkv.2)

/-- The layers from `layer` on, with the rows they write. -/
def layers (pos : Nat) (past : Past F) : List (Block F) → Nat → List F → List F × List (KeyValue F)
  | [], _, x => (x, [])
  | blk :: blks, layer, x =>
    let out := m.layerOut reduce pos (past layer) blk x
    let rest := layers pos past blks (layer + 1) out.1
    (rest.1, out.2 :: rest.2)

def embed (token : UInt32) : List F :=
  (row m.dim m.embedding token.toNat).map m.scale

def logits (x : List F) : List F :=
  rowProducts (m.norm m.rmsFinal x) m.head m.dim m.vocabSize

/-- A whole step: the logits, and a row for each layer. -/
def step (pos : Nat) (past : Past F) (token : UInt32) : List F × List (KeyValue F) :=
  let out := m.layers reduce pos past m.blocks 0 (m.embed token)
  (m.logits out.1, out.2)

/-! ### Runs -/

/-- The rows of the positions before, layer by layer. -/
def pastOf (logs : List (List (KeyValue F))) : Past F :=
  fun layer => (logs.map fun log => (log.getD layer ([], [])).1, logs.map fun log => (log.getD layer ([], [])).2)

/-- The logits of each token after the positions of `logs`, and the rows of all positions. -/
def run : List (List (KeyValue F)) → List UInt32 → List (List F) × List (List (KeyValue F))
  | logs, [] => ([], logs)
  | logs, token :: tokens =>
    let out := m.step reduce logs.length (pastOf logs) token
    let rest := run (logs ++ [out.2]) tokens
    (out.1 :: rest.1, rest.2)

/-! ### Sizes -/

variable {reduce m}

theorem length_gated {gate up : List F} (h : up.length = gate.length) :
    (m.gated gate up).length = gate.length := by
  unfold gated
  rw [List.length_zipWith, h, Nat.min_self]

theorem length_residual {x y : List F} (h : y.length = x.length) : (residual x y).length = x.length := by
  unfold residual
  rw [List.length_zipWith, h, Nat.min_self]

@[simp] theorem length_attentionHead (q : List F) (keys values : List (List F)) (h : Nat) :
    (m.attentionHead reduce q keys values h).length = m.headSize := by
  unfold attentionHead
  simp

theorem length_attention (hm : m.dim = m.nHeads * m.headSize) (q : List F) (keys values : List (List F)) :
    (m.attention reduce q keys values).length = m.dim := by
  have heach : ∀ h ∈ List.range m.nHeads, (List.length ∘ m.attentionHead reduce q keys values) h = m.headSize :=
    fun h _ => length_attentionHead q keys values h
  unfold attention
  rw [List.length_flatten, List.map_map, List.map_congr_left heach, List.map_const', List.sum_replicate_nat,
    List.length_range, hm]

variable {pos : Nat} {blk : Block F} {x : List F}

@[simp] theorem length_query (pos : Nat) (blk : Block F) (x : List F) : (m.queryKeyValue pos blk x).1.length = m.dim := by
  unfold queryKeyValue
  simp

@[simp] theorem length_key (pos : Nat) (blk : Block F) (x : List F) :
    (m.queryKeyValue pos blk x).2.1.length = m.kvDim := by
  unfold queryKeyValue
  simp

@[simp] theorem length_value (pos : Nat) (blk : Block F) (x : List F) :
    (m.queryKeyValue pos blk x).2.2.length = m.kvDim := by
  unfold queryKeyValue
  simp

theorem length_attnOutput {heads : List F} (hx : x.length = m.dim) : (m.attnOutput blk x heads).length = m.dim :=
  (length_residual (by rw [length_rowProducts, hx])).trans hx

theorem length_feedForward (hx : x.length = m.dim) : (m.feedForward blk x).length = m.dim :=
  (length_residual (by rw [length_rowProducts, hx])).trans hx

theorem length_layerOut (pos : Nat) (past : List (List F) × List (List F)) (blk : Block F) (hx : x.length = m.dim) :
    (m.layerOut reduce pos past blk x).1.length = m.dim :=
  length_feedForward (length_attnOutput hx)

theorem length_layers (pos : Nat) (past : Past F) (blks : List (Block F)) (layer : Nat) (hx : x.length = m.dim) :
    (m.layers reduce pos past blks layer x).1.length = m.dim ∧
      (m.layers reduce pos past blks layer x).2.length = blks.length := by
  induction blks generalizing layer x with
  | nil => exact ⟨hx, rfl⟩
  | cons blk blks ih =>
    obtain ⟨hout, hrows⟩ := ih (layer + 1) (length_layerOut pos (past layer) blk hx)
    exact ⟨hout, congrArg Nat.succ hrows⟩

omit [F32 F] in
theorem length_embed (hm : m.Sized) {token : UInt32} (htoken : token.toNat < m.vocabSize) :
    (m.embed token).length = m.dim := by
  unfold embed
  rw [List.length_map, length_row htoken hm.embedding]

@[simp] theorem length_logits (x : List F) : (m.logits x).length = m.vocabSize :=
  length_rowProducts ..

@[simp] theorem length_step (pos : Nat) (past : Past F) (token : UInt32) :
    (m.step reduce pos past token).1.length = m.vocabSize :=
  length_logits _

/-- A step reads the past of its own layers only. -/
theorem layers_congr {past past' : Past F} (blks : List (Block F)) (layer : Nat)
    (h : ∀ i, layer ≤ i → i < layer + blks.length → past i = past' i) (x : List F) :
    m.layers reduce pos past blks layer x = m.layers reduce pos past' blks layer x := by
  induction blks generalizing layer x with
  | nil => rfl
  | cons blk blks ih =>
    rw [List.length_cons] at h
    unfold layers
    rw [h layer (Nat.le_refl _) (by omega)]
    dsimp only
    rw [ih (layer + 1) fun i hi hlt => h i (by omega) (by omega)]

theorem step_congr {past past' : Past F} (h : ∀ i < m.blocks.length, past i = past' i) (token : UInt32) :
    m.step reduce pos past token = m.step reduce pos past' token := by
  unfold step
  rw [layers_congr m.blocks 0 fun i _ hi => h i (by omega)]

theorem length_run (logs : List (List (KeyValue F))) (tokens : List UInt32) :
    (m.run reduce logs tokens).1.length = tokens.length := by
  induction tokens generalizing logs with
  | nil => rfl
  | cons token tokens ih => exact congrArg Nat.succ (ih _)

end Net

end VitniTensor
