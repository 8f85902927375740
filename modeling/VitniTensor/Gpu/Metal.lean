import VitniTensor.Model.Dispatch

/-!
# The Metal host

What the Metal backend keeps of a model, and the command buffer that it encodes for a step.
A dispatch names a pipeline with the buffers and scalars bound to it; the scalars are `uint`s,
as the kernels read them. The encoder runs dispatches in order.
-/

namespace VitniTensor

open Outcome

variable {F : Type} [F32 F]

/-- `{:?}` -/
def GgufTensorType.debug : GgufTensorType → String
  | f32 => "F32"
  | f16 => "F16"
  | q4_0 => "Q4_0"
  | q8_0 => "Q8_0"
  | q5_0 => "Q5_0"
  | q4_k => "Q4_K"
  | q6_k => "Q6_K"
  | other raw => "Other(" ++ toString raw ++ ")"

namespace Metal

/-! ### Weights on the device -/

structure WBuf where
  buf : List UInt8
  kind : UInt8
  n : Nat
  k : Nat

/-- Unknown dtypes fall back to 0. -/
def dtypeKind (dtypeDbg : String) : UInt8 :=
  match dtypeDbg with
  | "Q6_K" => 1
  | "Q8_0" => 2
  | "Q5_0" => 3
  | _ => 0

def mkw (t : QuantTensor) (n k : Nat) : WBuf :=
  ⟨t.bytes, dtypeKind t.dtype.debug, n, k⟩

/-- Entry `l` of each of the `l_*` vectors. -/
structure Layer (F : Type) where
  rmsAtt : List F
  rmsFfn : List F
  wq : WBuf
  wk : WBuf
  wv : WBuf
  bq : Option (List F)
  bk : Option (List F)
  bv : Option (List F)
  wo : WBuf
  w1 : WBuf
  w2 : WBuf
  w3 : WBuf

/-- A buffer of `n` floats, of which the host computes the size in bytes. -/
def zbuf (n : Nat) : Res Nat := do
  let _ ← word (n * 4)
  pure n

/-- The sizes of the scratch buffers, in the order of their fields. -/
def scratch (dim hidden vocab qOut headSize : Nat) : Res Unit := do
  let nsuper := max dim hidden / 256
  let _ ← [dim, dim, qOut, qOut, dim, hidden, hidden, hidden, vocab, headSize / 2, headSize / 2, nsuper].mapM zbuf
  let _ ← word (nsuper * 256)
  let bsums ← word (nsuper * 8)
  let _ ← word (bsums * 4)
  pure ()

end Metal

/-- Of the scratch buffers only the lengths of those that outlive a kernel are kept, and that of `b_att`. -/
structure MetalForward (F : Type) where
  ropeNeox : Bool
  regime : UInt8
  dim : Nat
  hidden : Nat
  nLayers : Nat
  nHeads : Nat
  kvDim : Nat
  kvMul : Nat
  headSize : Nat
  vocab : Nat
  rmsEps : F
  ropeTheta : F
  embedHost : List UInt8
  embedDtype : String
  wcls : Metal.WBuf
  rmsFinal : List F
  layers : List (Metal.Layer F)
  /-- Floats in each layer's buffer. -/
  keyCache : List Nat
  valueCache : List Nat
  /-- Floats in the buffer. -/
  bAtt : Nat

namespace MetalForward

open Metal

/-- One layer's entries of the vectors that `new` maps over the weights. -/
def layerOf (dim hidden qOut kvDim : Nat) (l : QuantLayer F) : Layer F where
  rmsAtt := l.rmsAttWeight
  rmsFfn := l.rmsFfnWeight
  wq := mkw l.wq qOut dim
  wk := mkw l.wk kvDim dim
  wv := mkw l.wv kvDim dim
  bq := l.bq
  bk := l.bk
  bv := l.bv
  wo := mkw l.wo dim dim
  w1 := mkw l.w1 hidden dim
  w2 := mkw l.w2 dim hidden
  w3 := mkw l.w3 hidden dim

/-- There is a device, and the kernels compile. -/
def new (cfg : Config) (w : QuantizedWeights F) : Res (MetalForward F) := do
  let kvDim ← cfg.kvDim
  let headSize ← cfg.headSize
  let qOut ← word (cfg.nHeads * headSize)
  let kvMul ← cfg.kvMul
  let cache := collectRange cfg.nLayers fun _ => do
    let n ← word (cfg.seqLen * kvDim)
    zbuf n
  let keyCache ← cache
  let valueCache ← cache
  scratch cfg.dim cfg.hiddenDim cfg.vocabSize qOut headSize
  pure {
    ropeNeox := w.ropeNeox
    regime := 2
    dim := cfg.dim
    hidden := cfg.hiddenDim
    nLayers := cfg.nLayers
    nHeads := cfg.nHeads
    kvDim := kvDim
    kvMul := kvMul
    headSize := headSize
    vocab := cfg.vocabSize
    rmsEps := w.rmsEps
    ropeTheta := w.ropeTheta
    embedHost := w.tokenEmbeddingTable.bytes
    embedDtype := w.tokenEmbeddingTable.dtype.debug
    wcls := match w.wcls with
      | some c => mkw c cfg.vocabSize cfg.dim
      | none => mkw w.tokenEmbeddingTable cfg.vocabSize cfg.dim
    rmsFinal := w.rmsFinalWeight
    layers := w.layers.map (layerOf cfg.dim cfg.hiddenDim qOut kvDim)
    keyCache := keyCache
    valueCache := valueCache
    bAtt := qOut }

def setRegime (mf : MetalForward F) (regime : UInt8) : MetalForward F :=
  { mf with regime := regime }

/-! ### The embedding row -/

/-- `.expect`: an error ends in a panic. -/
def expect {α : Type} (x : Res α) : Res α :=
  match x with
  | .error (.err _) => panic .explicit
  | other => other

/-- The row of a table of blocks, `rb` bytes long. -/
def embedBlocks (rb : Nat) (dequant : List UInt8 → Res (List F)) (b : List UInt8) (token : Nat) :
    Res (List F) := do
  let bytes ← slice b (token * rb) ((token + 1) * rb)
  expect (dequant bytes)

/-- Four bytes of the table from `i` on, as a float. -/
def f32At (b : List UInt8) (i : Nat) : Res F := do
  let b0 ← index b i
  let b1 ← index b (i + 1)
  let b2 ← index b (i + 2)
  let b3 ← index b (i + 3)
  pure (f32Le #v[b0, b1, b2, b3])

def embedRow (mf : MetalForward F) (token : Nat) : Res (List F) :=
  let b := mf.embedHost
  match mf.embedDtype with
  | "F32" =>
    let off := token * mf.dim * 4
    collectRange mf.dim fun i => f32At b (off + i * 4)
  | "Q4_0" => embedBlocks (mf.dim / 32 * 18) dequantizeQ4_0 b token
  | "Q8_0" => embedBlocks (mf.dim / 32 * 34) dequantizeQ8_0 b token
  | "Q5_0" => embedBlocks (mf.dim / 32 * 22) dequantizeQ5_0 b token
  | "Q4_K" => embedBlocks (mf.dim / 256 * 144) dequantizeQ4K b token
  | "Q6_K" => embedBlocks (mf.dim / 256 * 210) dequantizeQ6K b token
  | _ => panic .explicit

end MetalForward

/-! ### Dispatches -/

namespace Metal

/-- Buffers that a dispatch reads or writes; `q8` holds a quantized input. -/
inductive Buf where
  | bX | bXb | bQ | bAtt | bGate | bUp | bInner | bLogits
  | keyCache (layer : Nat)
  | valueCache (layer : Nat)
  deriving DecidableEq, Repr

/-- The pipelines that quantize the input of a linear. -/
inductive Quantize where
  | q6kQuant
  | q8Quant
  deriving DecidableEq, Repr

/-- The pipelines that multiply a float input. -/
inductive Linear where
  | q4k
  | q8_0
  | q5_0
  deriving DecidableEq, Repr

/-- The pipelines that multiply a quantized input. -/
inductive Dot where
  | q6kDot
  | q4kRs
  | q6kRs
  deriving DecidableEq, Repr

/-- `{k, n, nsuper}` -/
structure Dims where
  k : UInt32
  n : UInt32
  nsuper : UInt32
  deriving DecidableEq, Repr

/-- One dispatch. Offsets are in bytes; `acc` tells the `_acc` pipelines. The tables `b_cos` and `b_sin` are
bound to every rotation, whose `seq` is 1. -/
inductive Dispatch (F : Type) where
  | rms (x : Buf) (w : List F) (out : Buf) (feat rows : UInt32) (eps : F)
  | quantize (pl : Quantize) (x : Buf) (nsuper : UInt32)
  | linear (pl : Linear) (acc : Bool) (x : Buf) (w : List UInt8) (out : Buf) (off : Nat) (dims : Dims)
  | dot (pl : Dot) (acc : Bool) (w : List UInt8) (out : Buf) (off : Nat) (dims : Dims)
  | add (x : Buf) (off : Nat) (y : List F) (n : UInt32)
  | rope (neox : Bool) (x : Buf) (off : Nat) (nHeads headSize : UInt32)
  | attention (q : Buf) (layer : Nat) (out : Buf) (nHeads headSize kvDim kvMul pos : UInt32)
  | siluMul (gate up out : Buf) (n : UInt32)

end Metal

namespace MetalForward

open Metal

variable (mf : MetalForward F)

/-- The body of `lin` and `lin_acc`, which differ in the pipelines they pick. -/
def linearInto (acc : Bool) (input : Buf) (wt : WBuf) (out : Buf) (off : Nat) : List (Dispatch F) :=
  let nsuper := UInt32.ofNat (wt.k / 256)
  let dims : Dims := ⟨UInt32.ofNat wt.k, UInt32.ofNat wt.n, nsuper⟩
  if wt.kind = 2 then [.linear .q8_0 acc input wt.buf out off dims]
  else if wt.kind = 3 then [.linear .q5_0 acc input wt.buf out off dims]
  else if mf.regime = 3 then
    .quantize .q8Quant input nsuper ::
      (if wt.kind = 1 then [.dot .q6kRs acc wt.buf out off dims]
      else [.dot .q4kRs acc wt.buf out off dims])
  else if wt.kind = 1 then
    [.quantize .q6kQuant input nsuper, .dot .q6kDot acc wt.buf out off dims]
  else [.linear .q4k acc input wt.buf out off dims]

def lin (input : Buf) (wt : WBuf) (out : Buf) (off : Nat) : List (Dispatch F) :=
  mf.linearInto false input wt out off

def linAcc (input : Buf) (wt : WBuf) (out : Buf) (off : Nat) : List (Dispatch F) :=
  mf.linearInto true input wt out off

/-- `Option::unwrap`. -/
def unwrap {α : Type} (x : Option α) : Res α :=
  match x with
  | some a => .ok a
  | none => panic .explicit

/-- The biases of a layer, which the first one stands for. -/
def addBiases (layer koff : Nat) (l : Layer F) : Res (List (Dispatch F)) :=
  if l.bq.isSome then do
    let bq ← unwrap l.bq
    let bk ← unwrap l.bk
    let bv ← unwrap l.bv
    let kvDim := UInt32.ofNat mf.kvDim
    pure [.add .bQ 0 bq (UInt32.ofNat (mf.nHeads * mf.headSize)),
      .add (.keyCache layer) koff bk kvDim, .add (.valueCache layer) koff bv kvDim]
  else pure []

/-- Up to the residual after `wo`. -/
def attentionCommands (pos koff layer : Nat) (l : Layer F) : Res (List (Dispatch F)) := do
  let nHeads := UInt32.ofNat mf.nHeads
  let headSize := UInt32.ofNat mf.headSize
  let biases ← mf.addBiases layer koff l
  let nKv ← div mf.kvDim mf.headSize
  pure (.rms .bX l.rmsAtt .bXb (UInt32.ofNat mf.dim) 1 mf.rmsEps ::
    mf.lin .bXb l.wq .bQ 0 ++
    mf.lin .bXb l.wk (.keyCache layer) koff ++
    mf.lin .bXb l.wv (.valueCache layer) koff ++
    biases ++
    [.rope mf.ropeNeox .bQ 0 nHeads headSize,
      .rope mf.ropeNeox (.keyCache layer) koff (UInt32.ofNat nKv) headSize,
      .attention .bQ layer .bAtt nHeads headSize (UInt32.ofNat mf.kvDim) (UInt32.ofNat mf.kvMul)
        (UInt32.ofNat pos)] ++
    mf.linAcc .bAtt l.wo .bX 0)

/-- Up to the residual after `w2`. -/
def feedForwardCommands (l : Layer F) : List (Dispatch F) :=
  .rms .bX l.rmsFfn .bXb (UInt32.ofNat mf.dim) 1 mf.rmsEps ::
    mf.lin .bXb l.w1 .bGate 0 ++
    mf.lin .bXb l.w3 .bUp 0 ++
    .siluMul .bGate .bUp .bInner (UInt32.ofNat mf.hidden) ::
    mf.linAcc .bInner l.w2 .bX 0

def layerCommands (pos koff layer : Nat) : Res (List (Dispatch F)) := do
  let l ← index mf.layers layer
  let attention ← mf.attentionCommands pos koff layer l
  pure (attention ++ mf.feedForwardCommands l)

/-- The command buffer of a step. -/
def commands (pos : Nat) : Res (List (Dispatch F)) := do
  let row ← word (pos * mf.kvDim)
  let koff ← word (row * 4)
  let body ← forRange mf.nLayers (fun layer e => do
    let cmds ← mf.layerCommands pos koff layer
    pure (e ++ cmds)) []
  pure (body ++ .rms .bX mf.rmsFinal .bXb (UInt32.ofNat mf.dim) 1 mf.rmsEps :: mf.lin .bXb mf.wcls .bLogits 0)

end MetalForward

/-! ### A step -/

/-- Cosine and sine for pair `j` of a head. -/
def hostAngle (theta : F) (headSize pos j : Nat) : F × F :=
  let freq := F32.div F32.one (F32.powf theta (F32.div (F32.ofInt (2 * j : Nat)) (F32.ofInt headSize)))
  let val := F32.mul (F32.ofInt pos) freq
  (F32.cosf val, F32.sinf val)

/-- The loop of `rope_cache`, which both hosts have. -/
def ropeTables (theta : F) (headSize pos : Nat) (c s : List F) : Res (List F × List F) :=
  forRange (headSize / 2) (fun j t => do
    let c ← store t.1 j (hostAngle theta headSize pos j).1
    let s ← store t.2 j (hostAngle theta headSize pos j).2
    pure (c, s)) (c, s)

theorem ropeTables_eq {theta : F} {headSize pos : Nat} {c s : List F} (hc : c.length = headSize / 2)
    (hs : s.length = headSize / 2) :
    ropeTables theta headSize pos c s = .ok ((List.range (headSize / 2)).map fun j => (hostAngle theta headSize pos j).1,
      (List.range (headSize / 2)).map fun j => (hostAngle theta headSize pos j).2) := by
  have hfill : ∀ (v : Nat → F) (y : List F), y.length = headSize / 2 →
      forRange (headSize / 2) (fun j y => store y j (v j)) y = (.ok ((List.range (headSize / 2)).map v) : Res (List F)) := by
    intro v y hy
    have hrun := @Fill.forFrom_store_fill Error F (fun i => .ok (v i)) id v 0 (headSize / 2) y
      fun i _ hi => ⟨rfl, by rw [id, hy]; omega⟩
    rw [List.map_id, ← List.range_eq_range', Fill.fill_all fun i hi => List.mem_range.mpr (hy ▸ hi), hy] at hrun
    exact hrun
  refine forFrom_pair (fun j a b a' b' _ _ ha hb => ?_) (hfill _ c hc) (hfill _ s hs)
  rw [ha, ok_bind, hb, ok_bind]
  rfl

/-- What a step hands to the device: the tables in `b_cos` and `b_sin`, the embedding row in `b_x`, and
the command buffer. -/
structure Metal.Submission (F : Type) where
  cos : List F
  sin : List F
  row : List F
  commands : List (Metal.Dispatch F)

namespace MetalForward

open Metal

variable (mf : MetalForward F)

def ropeCache (pos : Nat) : Res (List F × List F) := do
  let c ← zeroVec (mf.headSize / 2)
  let s ← zeroVec (mf.headSize / 2)
  ropeTables mf.ropeTheta mf.headSize pos c s

/-- The tables of a step, unless they are too long to allocate. -/
theorem ropeCache_eq_ok {pos : Nat} {tables : List F × List F} :
    mf.ropeCache pos = .ok tables ↔ mf.headSize / 2 * 4 < 2 ^ 63 ∧
      tables = ((List.range (mf.headSize / 2)).map fun j => (hostAngle mf.ropeTheta mf.headSize pos j).1,
        (List.range (mf.headSize / 2)).map fun j => (hostAngle mf.ropeTheta mf.headSize pos j).2) := by
  unfold ropeCache
  by_cases hmemory : mf.headSize / 2 * 4 < 2 ^ 63
  · rw [zeroVec_of_lt hmemory, ok_bind, ok_bind, ropeTables_eq List.length_replicate List.length_replicate]
    exact ⟨fun h => ⟨hmemory, (Except.ok.inj h).symm⟩, fun h => by rw [h.2]⟩
  · rw [zeroVec_of_ge (Nat.not_lt.mp hmemory)]
    exact iff_of_false (fun h => nomatch h) (fun h => hmemory h.1)

def step (token : UInt32) (pos : Nat) : Res (Submission F) := do
  let (c, s) ← mf.ropeCache pos
  let erow ← mf.embedRow token.toNat
  let cmds ← mf.commands pos
  pure ⟨c, s, erow, cmds⟩

end MetalForward

end VitniTensor
