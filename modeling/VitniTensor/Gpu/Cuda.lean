import VitniTensor.Gpu.Metal
import VitniTensor.Lib.Emits

/-!
# The CUDA host

The handle that the CUDA backend makes of a model, and the kernels that it launches for a step; they
are launched one by one, and those before a stop stay launched.
The host keeps sizes as C `int`s and passes them on as `unsigned`; arithmetic on an `int` is that of
the integers, since C leaves its overflow undefined.
-/

namespace VitniTensor

open Outcome Exec

variable {F : Type}

inductive CudaError where
  | alloc (msg : String)
  | unsupported (msg : String)
  | device (code : Int)
  | engine (e : Error)
  deriving DecidableEq, Repr

namespace Cuda

/-- `n as c_int` -/
def cInt (n : Nat) : Int :=
  Int.bmod n (2 ^ 32)

/-- An `int` where an `unsigned` is expected. -/
def unsigned (i : Int) : UInt32 :=
  UInt32.ofNat (i % 2 ^ 32).toNat

/-- An `int` where a `size_t` is expected. -/
def sizeT (i : Int) : Nat :=
  (i % 2 ^ 64).toNat

/-- `a / b` of two `int`s. -/
def divInt (a b : Int) : Res Int :=
  if b = 0 then panic .divideByZero else .ok (a.tdiv b)

structure VtCfg (F : Type) where
  dim : Int
  hidden : Int
  nLayers : Int
  nHeads : Int
  headSize : Int
  kvDim : Int
  kvMul : Int
  vocab : Int
  maxSeq : Int
  ropeNeox : Bool
  regime : Int
  rmsEps : F
  ropeTheta : F

/-- The bytes of a matrix, and its `q6k_*` field, which holds the kind. -/
structure Matrix where
  bytes : List UInt8
  kind : Int

/-- Entry `l` of each of the `d_*` arrays. -/
structure VtLayer (F : Type) where
  rmsAtt : List F
  rmsFfn : List F
  wq : Matrix
  wk : Matrix
  wv : Matrix
  wo : Matrix
  w1 : Matrix
  w2 : Matrix
  w3 : Matrix
  bq : Option (List F)
  bk : Option (List F)
  bv : Option (List F)

/-- Of the device buffers only the length of those that outlive a step is kept. -/
structure VtCuda (F : Type) where
  cfg : VtCfg F
  qOut : Int
  regime : Int
  wcls : Matrix
  rmsFinal : List F
  layers : List (VtLayer F)
  /-- Floats in each layer's `d_keyc` and `d_valc`. -/
  kvCells : Nat

/-- Any other dtype is refused. -/
def kind (t : QuantTensor) (name : String) : Outcome CudaError Int :=
  match t.dtype.debug with
  | "Q4_K" => .ok 0
  | "Q6_K" => .ok 1
  | "Q8_0" => .ok 2
  | "Q5_0" => .ok 3
  | other => err (.unsupported (name ++ " is " ++ other ++ "; only Q4_K/Q6_K/Q8_0/Q5_0 are ported"))

/-- `From<TError>` -/
def engine {α : Type} (x : Res α) : Outcome CudaError α :=
  match x with
  | .ok a => .ok a
  | .error (.err e) => err (.engine e)
  | .error (.panic p) => panic p

def matrix (t : QuantTensor) (name : String) : Outcome CudaError Matrix := do
  let kind ← kind t name
  pure ⟨t.bytes, kind⟩

/-- `vt_cuda_set_wcls`: the classifier, or the embedding that it is tied to. -/
def setWcls (w : QuantizedWeights F) : Outcome CudaError Matrix :=
  match w.wcls with
  | some t => matrix t "output"
  | none => matrix w.tokenEmbeddingTable "tied-embedding"

/-- `vt_cuda_set_layer`. -/
def setLayer (l : QuantLayer F) : Outcome CudaError (VtLayer F) := do
  let wq ← matrix l.wq "wq"
  let wk ← matrix l.wk "wk"
  let wv ← matrix l.wv "wv"
  let wo ← matrix l.wo "wo"
  let w1 ← matrix l.w1 "w1"
  let w2 ← matrix l.w2 "w2"
  let w3 ← matrix l.w3 "w3"
  pure ⟨l.rmsAttWeight, l.rmsFfnWeight, wq, wk, wv, wo, w1, w2, w3, l.bq, l.bk, l.bv⟩

/-- `n` zeros, of which there is at least one. -/
def devZeros (n : Nat) : Nat :=
  (if n = 0 then 1 else n) * 4 % 2 ^ 64 / 4

/-- The sizes as the C side gets them. -/
def vtCfg (cfg : Config) (w : QuantizedWeights F) (headSize kvDim kvMul maxSeq : Nat) (regime : Int) : VtCfg F where
  dim := cInt cfg.dim
  hidden := cInt cfg.hiddenDim
  nLayers := cInt cfg.nLayers
  nHeads := cInt cfg.nHeads
  headSize := cInt headSize
  kvDim := cInt kvDim
  kvMul := cInt kvMul
  vocab := cInt cfg.vocabSize
  maxSeq := cInt maxSeq
  ropeNeox := w.ropeNeox
  regime := regime
  rmsEps := w.rmsEps
  ropeTheta := w.ropeTheta

/-- `vt_cuda_new` and the setters, for matrices that are uploaded. -/
def vtCudaNew (c : VtCfg F) (wcls : Matrix) (rmsFinal : List F) (layers : List (VtLayer F)) : VtCuda F where
  cfg := c
  qOut := c.nHeads * c.headSize
  regime := if c.regime ≠ 0 then c.regime else 2
  wcls := wcls
  rmsFinal := rmsFinal
  layers := layers
  kvCells := devZeros (sizeT c.maxSeq * sizeT c.kvDim % 2 ^ 64)

/-- `vt_cuda_finalize`; `device` tells whether all uploads and allocations succeed. -/
def vtCudaFinalize (device : VtCuda F → Bool) (h : VtCuda F) : Outcome CudaError (VtCuda F) :=
  if device h then .ok h
  else err (.alloc "weight upload / scratch allocation (out of GPU memory?)")

end Cuda

/-- The forward pass of a model: the handle, the fields that the lookup of an embedding row reads, and the tables
of the rotation, which every step overwrites. -/
structure CudaForward (F : Type) where
  h : Cuda.VtCuda F
  headSize : Nat
  ropeTheta : F
  vocab : Nat
  dim : Nat
  embedBytes : List UInt8
  embedDtype : String
  cos : List F
  sin : List F

namespace Cuda

/-- `new_regime`. `maxSeqVar` is the number that `VITNI_MAX_SEQ` holds. The C arrays of the layers have
`n_layers` entries. -/
def newRegime [F32 F] (maxSeqVar : Option Nat) (device : VtCuda F → Bool) (cfg : Config) (w : QuantizedWeights F)
    (regime : Int) : Outcome CudaError (CudaForward F) := do
  let headSize ← engine cfg.headSize
  let _ ← engine (word (cfg.nHeads * headSize))
  let kvDim ← engine cfg.kvDim
  let cap := maxSeqVar.getD 4096
  let maxSeq := min cfg.seqLen cap
  let kvMul ← engine cfg.kvMul
  let c := vtCfg cfg w headSize kvDim kvMul maxSeq regime
  let wcls ← setWcls w
  let layers ← w.layers.mapM setLayer
  if layers.length > c.nLayers.toNat then panic .outOfRange
  else do
    let h ← vtCudaFinalize device (vtCudaNew c wcls w.rmsFinalWeight layers)
    let cos ← engine (zeroVec (headSize / 2))
    let sin ← engine (zeroVec (headSize / 2))
    pure {
      h
      headSize
      ropeTheta := w.ropeTheta
      vocab := cfg.vocabSize
      dim := cfg.dim
      embedBytes := w.tokenEmbeddingTable.bytes
      embedDtype := w.tokenEmbeddingTable.dtype.debug
      cos
      sin }

end Cuda

/-! ### The embedding row -/

namespace CudaForward

variable [F32 F]

/-- `dequantize(slice(rb))?`. -/
def embedBlocks (rb : Nat) (dequant : List UInt8 → Res (List F)) (b : List UInt8) (token : Nat) :
    Outcome CudaError (List F) := do
  let bytes ← slice b (token * rb) ((token + 1) * rb)
  Cuda.engine (dequant bytes)

def embedRow (cf : CudaForward F) (token : Nat) : Outcome CudaError (List F) :=
  let b := cf.embedBytes
  match cf.embedDtype with
  | "F32" =>
    let off := token * cf.dim * 4
    Cuda.engine (collectRange cf.dim fun i => MetalForward.f32At b (off + i * 4))
  | "Q4_0" => embedBlocks (cf.dim / 32 * 18) dequantizeQ4_0 b token
  | "Q8_0" => embedBlocks (cf.dim / 32 * 34) dequantizeQ8_0 b token
  | "Q5_0" => embedBlocks (cf.dim / 32 * 22) dequantizeQ5_0 b token
  | "Q4_K" => embedBlocks (cf.dim / 256 * 144) dequantizeQ4K b token
  | "Q6_K" => embedBlocks (cf.dim / 256 * 210) dequantizeQ6K b token
  | other => err (.unsupported ("embedding dtype " ++ other))

end CudaForward

namespace Cuda

/-! ### Launches -/

/-- The buffers of the handle; `d_keyc` and `d_valc` have one for each layer. -/
inductive Buf where
  | x | xb | q | att | gate | up | inner | logits
  | keyc (layer : Nat)
  | valc (layer : Nat)
  deriving DecidableEq, Repr

/-- The cell `off` of a buffer. -/
structure Ptr where
  buf : Buf
  off : Nat
  deriving DecidableEq, Repr

instance : Coe Buf Ptr :=
  ⟨fun buf => ⟨buf, 0⟩⟩

/-- The kernels of a step; the quantized input of `dot` and `rs` kernels is the scratch `d_q8_*`. -/
inductive Kernel (F : Type) where
  | rms (x : Ptr) (wt : List F) (out : Ptr) (feat rows : UInt32) (eps : F)
  | q4kCoop (x : Ptr) (w : List UInt8) (out : Ptr) (k m nsuper : UInt32) (acc : Bool)
  | q6kQuantize (x : Ptr) (nsuper : UInt32)
  | q6kDot (acc : Bool) (w : List UInt8) (out : Ptr) (k m nsuper : UInt32)
  | q80 (acc : Bool) (x : Ptr) (w : List UInt8) (out : Ptr) (k m : UInt32)
  | q50 (acc : Bool) (x : Ptr) (w : List UInt8) (out : Ptr) (k m : UInt32)
  | q4kQ8Quantize (x : Ptr) (nsuper : UInt32)
  | q4kRs (w : List UInt8) (out : Ptr) (m nsuper : UInt32) (acc : Bool)
  | q6kRs (w : List UInt8) (out : Ptr) (m nsuper : UInt32) (acc : Bool)
  | addBias (v : Ptr) (b : List F) (n : UInt32)
  | rope (neox : Bool) (x : Ptr) (seq nHeads headDim : UInt32)
  | attention (q : Ptr) (kc vc : Ptr) (xbout : Ptr) (nHeads headSize kvDim kvMul pos : UInt32)
  | siluMul (gate up out : Ptr) (n : UInt32)

/-- `kernel<<<grid, block>>>`. -/
structure Launch (F : Type) where
  grid : Nat
  block : Nat
  kernel : Kernel F

/-- A grid for `n` items, `per` to a block. A grid that is not positive launches nothing. -/
def gridFor (n per : Int) : Nat :=
  ((n + (per - 1)).tdiv per).toNat

def lin (input : Ptr) (w : Matrix) (out : Ptr) (m k : Int) (acc : Bool) (regime : Int) : List (Launch F) :=
  let nsuper := k.tdiv 256
  let g := gridFor m 64
  if regime = 3 ∧ w.kind = 0 then
    [⟨gridFor nsuper 64, 64, .q4kQ8Quantize input (unsigned nsuper)⟩,
      ⟨g, 64, .q4kRs w.bytes out (unsigned m) (unsigned nsuper) acc⟩]
  else if regime = 3 ∧ w.kind = 1 then
    [⟨gridFor nsuper 64, 64, .q6kQuantize input (unsigned nsuper)⟩,
      ⟨g, 64, .q6kRs w.bytes out (unsigned m) (unsigned nsuper) acc⟩]
  else if w.kind = 1 then
    -- the handle has its scratch before any step, so the fused fallback is not reached
    [⟨gridFor nsuper 64, 64, .q6kQuantize input (unsigned nsuper)⟩,
      ⟨g, 64, .q6kDot acc w.bytes out (unsigned k) (unsigned m) (unsigned nsuper)⟩]
  else if w.kind = 2 then [⟨g, 64, .q80 acc input w.bytes out (unsigned k) (unsigned m)⟩]
  else if w.kind = 3 then [⟨g, 64, .q50 acc input w.bytes out (unsigned k) (unsigned m)⟩]
  else [⟨gridFor m 8, 64, .q4kCoop input w.bytes out (unsigned k) (unsigned m) (unsigned nsuper) acc⟩]

namespace VtCuda

variable (h : VtCuda F)

/-- A bias is added where there is one. -/
def addBias (v : Ptr) (b : Option (List F)) (n : Int) : List (Launch F) :=
  match b with
  | some b => [⟨gridFor n 256, 256, .addBias v b (unsigned n)⟩]
  | none => []

/-- Row `pos` of a cache. -/
def rowPtr (buf : Buf) (pos : UInt32) : Ptr :=
  ⟨buf, pos.toNat * sizeT h.cfg.kvDim % 2 ^ 64⟩

/-- Up to the biases. -/
def projectionLaunches (pos : UInt32) (layer : Nat) (l : VtLayer F) : List (Launch F) :=
  let c := h.cfg
  let kptr := h.rowPtr (.keyc layer) pos
  let vptr := h.rowPtr (.valc layer) pos
  ⟨1, 64, .rms Buf.x l.rmsAtt Buf.xb (unsigned c.dim) 1 c.rmsEps⟩ ::
    lin Buf.xb l.wq Buf.q h.qOut c.dim false h.regime ++
    lin Buf.xb l.wk kptr c.kvDim c.dim false h.regime ++
    lin Buf.xb l.wv vptr c.kvDim c.dim false h.regime ++
    addBias Buf.q l.bq h.qOut ++ addBias kptr l.bk c.kvDim ++ addBias vptr l.bv c.kvDim

/-- Up to the residual after `wo`; `nKv` is `n_kv`. -/
def attentionLaunches (pos : UInt32) (layer : Nat) (l : VtLayer F) (nKv : Int) : List (Launch F) :=
  let c := h.cfg
  let kptr := h.rowPtr (.keyc layer) pos
  [⟨gridFor c.nHeads 64, 64, .rope c.ropeNeox Buf.q 1 (unsigned c.nHeads) (unsigned c.headSize)⟩,
    ⟨gridFor nKv 64, 64, .rope c.ropeNeox kptr 1 (unsigned nKv) (unsigned c.headSize)⟩,
    ⟨gridFor c.nHeads 64, 64, .attention Buf.q (Buf.keyc layer) (Buf.valc layer) Buf.att
      (unsigned c.nHeads) (unsigned c.headSize) (unsigned c.kvDim) (unsigned c.kvMul) pos⟩] ++
    lin Buf.att l.wo Buf.x c.dim c.dim true h.regime

/-- Up to the residual after `w2`. -/
def feedForwardLaunches (l : VtLayer F) : List (Launch F) :=
  let c := h.cfg
  ⟨1, 64, .rms Buf.x l.rmsFfn Buf.xb (unsigned c.dim) 1 c.rmsEps⟩ ::
    lin Buf.xb l.w1 Buf.gate c.hidden c.dim false h.regime ++
    lin Buf.xb l.w3 Buf.up c.hidden c.dim false h.regime ++
    ⟨gridFor c.hidden 256, 256, .siluMul Buf.gate Buf.up Buf.inner (unsigned c.hidden)⟩ ::
    lin Buf.inner l.w2 Buf.x c.dim c.hidden true h.regime

def headLaunches : List (Launch F) :=
  ⟨1, 64, .rms Buf.x h.rmsFinal Buf.xb (unsigned h.cfg.dim) 1 h.cfg.rmsEps⟩ ::
    lin Buf.xb h.wcls Buf.logits h.cfg.vocab h.cfg.dim false h.regime

/-- The weights of a layer without an entry are null, and the first kernel that reads them is the last one
that runs. -/
def layerStep (pos : UInt32) (layer : Nat) : Exec (List (Launch F)) Error Unit := do
  let l ← lift (index h.layers layer)
  emit (h.projectionLaunches pos layer l)
  let nKv ← lift (divInt h.cfg.kvDim h.cfg.headSize)
  emit (h.attentionLaunches pos layer l nKv ++ h.feedForwardLaunches l)

/-- `vt_cuda_step`, on a device that does not fail. -/
def vtCudaStep (pos : UInt32) : Exec (List (Launch F)) Error Unit := do
  forRange h.cfg.nLayers.toNat (fun layer _ => h.layerStep pos layer) ()
  emit h.headLaunches

end VtCuda

/-- `.expect`: an error ends in a panic. -/
def expect {α : Type} (x : Outcome CudaError α) : Res α :=
  match x with
  | .ok a => .ok a
  | .error (.err _) => panic .explicit
  | .error (.panic p) => panic p

end Cuda

namespace CudaForward

/-- What a step launches. -/
def step [F32 F] (cf : CudaForward F) (token : UInt32) (pos : Nat) : Exec (List (Cuda.Launch F)) Error Unit := do
  let _ ← lift (ropeTables cf.ropeTheta cf.headSize pos cf.cos cf.sin)
  let _ ← lift (Cuda.expect (cf.embedRow token.toNat))
  let _ ← lift (zeroVec cf.vocab : Res (List F))
  cf.h.vtCudaStep (UInt32.ofNat pos)

end CudaForward

end VitniTensor
