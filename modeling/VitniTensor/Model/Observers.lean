import VitniTensor.Cert.Builder
import VitniTensor.Model.QuantWeights

/-!
# Observers of a forward pass

What a caller may attach to a step: recorders that hash operations and activations into a
certificate, a capture of raw activations, and a plan of interventions on them.
-/

namespace VitniTensor

variable {F : Type} [F32 F]

/-- `u32::MAX`, the layer of what belongs to no layer. -/
def noLayer : UInt32 := 0xFFFFFFFF

/-- BLAKE3 of the raw little-endian bytes. -/
def hashF32Slice (blake3 : Blake3) (s : List F) : Hash :=
  blake3 (s.flatMap fun v => LittleEndian.toBytes 4 (F32.toBits v).toNat)

/-! ### Operations -/

structure PerOpRecorder where
  builder : CertBuilder
  paramsCache : BTreeMap Hash

namespace PerOpRecorder

/-- `{part}/{l}` -/
def paramsKey (part : String) (l : Nat) : String :=
  part ++ "/" ++ toString l

/-- The entries of one layer. -/
def cacheLayer (blake3 : Blake3) (cache : BTreeMap Hash) (l : Nat) (blk : QuantLayer F) : BTreeMap Hash :=
  let cache := cache.insert (paramsKey "rms_att" l) (hashF32Slice blake3 blk.rmsAttWeight)
  let cache := cache.insert (paramsKey "wq" l) (blake3 blk.wq.bytes)
  let cache := cache.insert (paramsKey "wk" l) (blake3 blk.wk.bytes)
  let cache := cache.insert (paramsKey "wv" l) (blake3 blk.wv.bytes)
  let cache := cache.insert (paramsKey "wo" l) (blake3 blk.wo.bytes)
  let cache := cache.insert (paramsKey "rms_ffn" l) (hashF32Slice blake3 blk.rmsFfnWeight)
  let cache := cache.insert (paramsKey "w1" l) (blake3 blk.w1.bytes)
  let cache := cache.insert (paramsKey "w2" l) (blake3 blk.w2.bytes)
  cache.insert (paramsKey "w3" l) (blake3 blk.w3.bytes)

def new (blake3 : Blake3) (builder : CertBuilder) (weights : QuantizedWeights F) : PerOpRecorder :=
  let cache : BTreeMap Hash := ∅
  let cache := cache.insert "token_embd" (blake3 weights.tokenEmbeddingTable.bytes)
  let cache := cache.insert "rms_final" (hashF32Slice blake3 weights.rmsFinalWeight)
  let cache := match weights.wcls with
    | some wcls => cache.insert "wcls" (blake3 wcls.bytes)
    | none => cache
  ⟨builder, weights.layers.zipIdx.foldl (fun cache blk => cacheLayer blake3 cache blk.2 blk.1) cache⟩

/-- The parameters' hash is zero for an op without parameters and for an unknown key. -/
def record (blake3 : Blake3) (rec : PerOpRecorder) (opName : String) (layer : UInt32)
    (paramsKey : String) (input output : List F) : PerOpRecorder :=
  let zero : Hash := Vector.replicate 32 0
  let paramsHash := if paramsKey.isEmpty then zero else (rec.paramsCache[paramsKey]?).getD zero
  { rec with
    builder := rec.builder.declareOp opName layer (hashF32Slice blake3 input) paramsHash
      (hashF32Slice blake3 output) }

end PerOpRecorder

/-! ### Activations -/

/-- `PerActivationRecorder`: a builder that activations are declared to. -/
structure PerActivationRecorder where
  builder : CertBuilder

def PerActivationRecorder.record (blake3 : Blake3) (ar : PerActivationRecorder)
    (tokenIndex layer : UInt32) (checkpoint : String) (tensor : List F) : PerActivationRecorder :=
  ⟨ar.builder.declareActivation tokenIndex layer checkpoint (hashF32Slice blake3 tensor)⟩

structure LensEntry (F : Type) where
  tokenIndex : UInt32
  layer : UInt32
  checkpoint : String
  residualStream : List F

structure LensCapture (F : Type) where
  entries : List (LensEntry F)

def LensCapture.push (lc : LensCapture F) (tokenIndex layer : UInt32) (checkpoint : String)
    (residual : List F) : LensCapture F :=
  ⟨lc.entries ++ [⟨tokenIndex, layer, checkpoint, residual⟩]⟩

/-! ### Interventions -/

structure InterventionEntry (F : Type) where
  tokenIndex : UInt32
  layer : UInt32
  checkpoint : String
  replacement : List F

structure InterventionPlan (F : Type) where
  entries : List (InterventionEntry F)

namespace InterventionPlan

def new : InterventionPlan F := ⟨[]⟩

def add (plan : InterventionPlan F) (tokenIndex layer : UInt32) (checkpoint : String)
    (replacement : List F) : InterventionPlan F :=
  ⟨plan.entries ++ [⟨tokenIndex, layer, checkpoint, replacement⟩]⟩

/-- The last entry declared for a checkpoint wins. -/
def lookup (plan : InterventionPlan F) (tokenIndex layer : UInt32) (checkpoint : String) :
    Option (List F) :=
  (plan.entries.reverse.find? fun e =>
    e.tokenIndex == tokenIndex && e.layer == layer && e.checkpoint == checkpoint).map (·.replacement)

end InterventionPlan

/-- The observers that a step writes to. -/
structure Observers (F : Type) where
  recorder : Option PerOpRecorder
  actRecorder : Option PerActivationRecorder
  lens : Option (LensCapture F)

/-- A step that nobody observes. -/
def Observers.none : Observers F := ⟨.none, .none, .none⟩

end VitniTensor
