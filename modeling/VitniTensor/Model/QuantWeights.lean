import VitniTensor.Model.Config
import VitniTensor.Quant.Blocks

/-!
# Quantized weights

The view of a model file's tensors that the quantized forward pass reads. Whether a tensor's
bytes start at a 4-aligned address is a property of the file's place in memory, so it is
given with each tensor.
-/

namespace VitniTensor

open Outcome

variable {F : Type} [F32 F]

structure QuantTensor where
  shape : List UInt64
  dtype : GgufTensorType
  bytes : List UInt8
  /-- Whether `bytes.as_ptr()` is a multiple of 4. -/
  aligned : Bool
  deriving DecidableEq, Repr

structure QuantLayer (F : Type) where
  rmsAttWeight : List F
  wq : QuantTensor
  wk : QuantTensor
  wv : QuantTensor
  wo : QuantTensor
  rmsFfnWeight : List F
  w1 : QuantTensor
  w2 : QuantTensor
  w3 : QuantTensor
  bq : Option (List F)
  bk : Option (List F)
  bv : Option (List F)

def QuantLayer.matrices (blk : QuantLayer F) : List QuantTensor :=
  [blk.wq, blk.wk, blk.wv, blk.wo, blk.w1, blk.w2, blk.w3]

structure QuantizedWeights (F : Type) where
  tokenEmbeddingTable : QuantTensor
  layers : List (QuantLayer F)
  rmsFinalWeight : List F
  wcls : Option QuantTensor
  ropeTheta : F
  rmsEps : F
  ropeNeox : Bool

/-- Four little-endian bytes as a float. -/
def f32Le (word : Vector UInt8 4) : F :=
  F32.ofBits (word[0].toUInt32 ||| (word[1].toUInt32 <<< 8) ||| (word[2].toUInt32 <<< 16) |||
    (word[3].toUInt32 <<< 24))

def f32View (bytes : List UInt8) (aligned : Bool) : Res (List F) :=
  if bytes.length % 4 ≠ 0 then
    .error (.err (.invalidShape "f32 view: byte length not a multiple of 4"))
  else if !aligned then
    .error (.err (.invalidShape "f32 view: tensor offset not 4-byte aligned (malformed file)"))
  else .ok ((blocksOf 4 bytes).map f32Le)

theorem f32View_eq_ok {bytes : List UInt8} {aligned : Bool} {xs : List F}
    (h : f32View bytes aligned = .ok xs) : xs.length = bytes.length / 4 := by
  unfold f32View at h
  split at h
  next => cases h
  next =>
    split at h
    next => cases h
    next =>
      cases h
      rw [List.length_map, length_blocksOf]

namespace QuantizedWeights

/-- `QuantTensor::from`; `aligned` says which tensors of the file are 4-aligned in memory. -/
def quantTensor (aligned : String → Bool) (t : GgufTensor) : QuantTensor :=
  ⟨t.shape, t.dtype, t.bytes, aligned t.name⟩

def getTensor (gguf : GgufFile) (name : String) : Res GgufTensor := do
  let t ← gguf.tensor name
  okOr t (.internal "gguf: required Llama tensor not found")

def readF32Tensor (aligned : String → Bool) (gguf : GgufFile) (name : String) : Res (List F) := do
  let t ← getTensor gguf name
  if t.dtype ≠ .f32 then
    .error (.err (.internal "gguf: expected F32 norm-weight tensor, got something else"))
  else f32View t.bytes (aligned t.name)

def readF32TensorOpt (aligned : String → Bool) (gguf : GgufFile) (name : String) :
    Res (Option (List F)) := do
  match ← gguf.tensor name with
  | none => pure none
  | some t =>
    if t.dtype ≠ .f32 then .error (.err (.internal "gguf: expected F32 bias tensor"))
    else do
      let xs ← f32View t.bytes (aligned t.name)
      pure (some xs)

/-- `blk.{l}.{part}` -/
def layerKey (l : Nat) (part : String) : String :=
  "blk." ++ toString l ++ "." ++ part

def readLayer (aligned : String → Bool) (gguf : GgufFile) (l : Nat) : Res (QuantLayer F) := do
  let matrix (part : String) : Res QuantTensor := do
    let t ← getTensor gguf (layerKey l part)
    pure (quantTensor aligned t)
  let rmsAttWeight ← readF32Tensor aligned gguf (layerKey l "attn_norm.weight")
  let wq ← matrix "attn_q.weight"
  let wk ← matrix "attn_k.weight"
  let wv ← matrix "attn_v.weight"
  let wo ← matrix "attn_output.weight"
  let rmsFfnWeight ← readF32Tensor aligned gguf (layerKey l "ffn_norm.weight")
  let w1 ← matrix "ffn_gate.weight"
  let w2 ← matrix "ffn_down.weight"
  let w3 ← matrix "ffn_up.weight"
  let bq ← readF32TensorOpt aligned gguf (layerKey l "attn_q.bias")
  let bk ← readF32TensorOpt aligned gguf (layerKey l "attn_k.bias")
  let bv ← readF32TensorOpt aligned gguf (layerKey l "attn_v.bias")
  pure ⟨rmsAttWeight, wq, wk, wv, wo, rmsFfnWeight, w1, w2, w3, bq, bk, bv⟩

/-- `Vec::<QuantLayer>::with_capacity`, whose elements take 416 bytes. -/
def reserveLayers (n : Nat) : Res Unit :=
  if n * 416 < 2 ^ 63 then .ok () else .error (.panic .capacityOverflow)

/-- A metadata float, or a default when it is missing or of another type. -/
def readF32Meta (gguf : GgufFile) (key : String) (default : F) : F :=
  match gguf.metadata[key]? with
  | some (.f32 bits) => F32.ofBits bits
  | _ => default

def fromGguf (aligned : String → Bool) (gguf : GgufFile) (cfg : Config) : Res (QuantizedWeights F) := do
  let embedding ← getTensor gguf "token_embd.weight"
  let rmsFinalWeight ← readF32Tensor aligned gguf "output_norm.weight"
  let output ← gguf.tensor "output.weight"
  if output.isSome = cfg.sharedWeights then
    .error (.err (.internal "gguf: shared_weights inconsistent with output.weight presence"))
  else do
    let arch ← unwrapOr (gguf.metadataStr "general.architecture") "llama"
    -- 10000.0 and 1e-5
    let ropeTheta := readF32Meta gguf (arch ++ ".rope.freq_base") (F32.ofBits 0x461C4000)
    let rmsEps := readF32Meta gguf (arch ++ ".attention.layer_norm_rms_epsilon")
      (F32.ofBits 0x3727C5AC)
    reserveLayers cfg.nLayers
    let layers ← collectRange cfg.nLayers (readLayer aligned gguf)
    pure ⟨quantTensor aligned embedding, layers, rmsFinalWeight, output.map (quantTensor aligned),
      ropeTheta, rmsEps, arch == "qwen2"⟩

end QuantizedWeights

end VitniTensor
