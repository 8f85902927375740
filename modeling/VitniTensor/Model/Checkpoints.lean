import VitniTensor.Model.Custody

/-!
# Checkpoints

A step consults the plan at its checkpoints and nowhere else. It is cut here at any of them: what it
does until it gets there, the checkpoint itself, and what it does next.
-/

namespace VitniTensor

open Outcome Exec

variable {F : Type} [F32 F]

/-- The checkpoints of a step. -/
inductive Site where
  | postEmbed
  | postAttn (layer : Nat)
  | postFfn (layer : Nat)
  | preLmHead
  | postLmHead
  deriving DecidableEq, Repr

namespace Site

def layer : Site → UInt32
  | postAttn l | postFfn l => UInt32.ofNat l
  | postEmbed | preLmHead | postLmHead => noLayer

def checkpoint : Site → String
  | postEmbed => "post_embed"
  | postAttn _ => "post_attn"
  | postFfn _ => "post_ffn"
  | preLmHead => "pre_lm_head"
  | postLmHead => "post_lm_head"

/-- The length of a vector that may stand in for the one at this checkpoint. -/
def width (cfg : Config) : Site → Nat
  | postLmHead => cfg.vocabSize
  | postEmbed | postAttn _ | postFfn _ | preLmHead => cfg.dim

/-- The sites of a model with `n` layers. -/
def Valid (n : Nat) : Site → Prop
  | postAttn l | postFfn l => l < n
  | postEmbed | preLmHead | postLmHead => True

/-- The place in the order of a step. -/
def rank (n : Nat) : Site → Nat
  | postEmbed => 0
  | postAttn l => 2 * l + 1
  | postFfn l => 2 * l + 2
  | preLmHead => 2 * n + 1
  | postLmHead => 2 * n + 2

/-- What a step holds at this checkpoint. -/
abbrev Held (F : Type) : Site → Type
  | postEmbed | postAttn _ | postFfn _ => Tensor F
  | preLmHead | postLmHead => List F

/-- The vector in it. -/
def vector : (s : Site) → s.Held F → Res (List F)
  | postEmbed, x | postAttn _, x | postFfn _, x => tensorAsF32 x
  | preLmHead, v | postLmHead, v => .ok v

end Site

namespace Pass

variable (p : Pass F)

/-! ### From one checkpoint to the next -/

def toEmbed (token : UInt32) : Step F (Tensor F) := do
  let row ← lift (embeddingRow p.weights.tokenEmbeddingTable token.toNat p.cfg.dim)
  lift (vectorTensor row p.cfg.dim)

def toAttn (layer : Nat) (x : Tensor F) : Step F (Tensor F) := do
  let blk ← lift (index p.weights.layers layer)
  let (q, k, v) ← p.project layer blk x
  p.cacheRow layer k v
  let q ← p.rope layer q
  let (run, _) ← state
  let xbOut ← lift (p.attend layer q run.keyCache run.valueCache)
  p.capture (UInt32.ofNat layer) "pre_wo" (.ok xbOut)
  let xb2Vec ← p.linear (UInt32.ofNat layer) (PerOpRecorder.paramsKey "wo" layer) xbOut blk.wo p.cfg.dim p.cfg.dim
  let xb2 ← lift (vectorTensor xb2Vec p.cfg.dim)
  lift (x.add xb2)

def toFfn (layer : Nat) (x : Tensor F) : Step F (Tensor F) := do
  let l := UInt32.ofNat layer
  let blk ← lift (index p.weights.layers layer)
  let xb ← p.rmsNorm l (PerOpRecorder.paramsKey "rms_ffn" layer) x blk.rmsFfnWeight
  let gate ← p.linear l (PerOpRecorder.paramsKey "w1" layer) xb blk.w1 p.cfg.dim p.cfg.hiddenDim
  let up ← p.linear l (PerOpRecorder.paramsKey "w3" layer) xb blk.w3 p.cfg.dim p.cfg.hiddenDim
  let inner ← lift (swiGlu gate up p.cfg.hiddenDim)
  let downVec ← p.linear l (PerOpRecorder.paramsKey "w2" layer) inner blk.w2 p.cfg.hiddenDim p.cfg.dim
  let down ← lift (vectorTensor downVec p.cfg.dim)
  lift (x.add down)

def toHead (x : Tensor F) : Step F (List F) :=
  p.rmsNorm noLayer "rms_final" x p.weights.rmsFinalWeight

def toLogits (xFinal : List F) : Step F (List F) :=
  p.linear noLayer p.lmHead.2 xFinal p.lmHead.1 p.cfg.dim p.cfg.vocabSize

/-- A checkpoint: the plan, then the snapshots. -/
def settle : (s : Site) → s.Held F → Step F (s.Held F)
  | .postEmbed, x => p.checkpoint noLayer "post_embed" x
  | .postAttn l, x => p.checkpoint (UInt32.ofNat l) "post_attn" x
  | .postFfn l, x => p.checkpoint (UInt32.ofNat l) "post_ffn" x
  | .preLmHead, v => do
    let v ← lift (p.intervene noLayer "pre_lm_head" p.cfg.dim .ok v)
    p.snapshot noLayer "pre_lm_head" (.ok v)
    p.capture noLayer "pre_lm_head" (.ok v)
    pure v
  | .postLmHead, v => do
    let v ← lift (p.intervene noLayer "post_lm_head" p.cfg.vocabSize .ok v)
    p.snapshot noLayer "post_lm_head" (.ok v)
    pure v

/-! ### A step cut in two -/

/-- The first layers. -/
def throughLayers (token : UInt32) (n : Nat) : Step F (Tensor F) := do
  let x ← p.embed token
  forRange n p.layerStep x

/-- Everything before the plan is consulted at `s`. -/
def reach (token : UInt32) : (s : Site) → Step F (s.Held F)
  | .postEmbed => p.toEmbed token
  | .postAttn l => do
    let x ← p.throughLayers token l
    p.toAttn l x
  | .postFfn l => do
    let x ← p.throughLayers token l
    let x ← p.toAttn l x
    let x ← p.settle (.postAttn l) x
    p.toFfn l x
  | .preLmHead => do
    let x ← p.throughLayers token p.cfg.nLayers
    p.toHead x
  | .postLmHead => do
    let x ← p.throughLayers token p.cfg.nLayers
    let v ← p.toHead x
    let v ← p.settle .preLmHead v
    p.toLogits v

theorem reach_postAttn (token : UInt32) (l : Nat) :
    p.reach token (.postAttn l) = p.throughLayers token l >>= p.toAttn l := rfl

theorem reach_postFfn (token : UInt32) (l : Nat) :
    p.reach token (.postFfn l) = p.throughLayers token l >>= fun x => p.toAttn l x >>= fun x =>
      p.settle (.postAttn l) x >>= p.toFfn l := rfl

theorem reach_postLmHead (token : UInt32) :
    p.reach token .postLmHead = p.throughLayers token p.cfg.nLayers >>= fun x => p.toHead x >>= fun v =>
      p.settle .preLmHead v >>= p.toLogits := rfl

/-- Everything behind the checkpoint `s`. -/
def next : (s : Site) → s.Held F → Step F (Tensor F)
  | .postEmbed, x => do
    let x ← forRange p.cfg.nLayers p.layerStep x
    p.logits x
  | .postAttn l, x => do
    let x ← p.toFfn l x
    let x ← p.settle (.postFfn l) x
    let x ← forFrom (l + 1) (p.cfg.nLayers - (l + 1)) p.layerStep x
    p.logits x
  | .postFfn l, x => do
    let x ← forFrom (l + 1) (p.cfg.nLayers - (l + 1)) p.layerStep x
    p.logits x
  | .preLmHead, v => do
    let y ← p.toLogits v
    let y ← p.settle .postLmHead y
    lift (vectorTensor y p.cfg.vocabSize)
  | .postLmHead, y => lift (vectorTensor y p.cfg.vocabSize)

theorem embed_eq (token : UInt32) : p.embed token = p.toEmbed token >>= p.settle .postEmbed := by
  unfold embed toEmbed
  rw [bind_assoc]
  rfl

theorem layerStep_eq (layer : Nat) (x : Tensor F) :
    p.layerStep layer x = p.toAttn layer x >>= fun x => p.settle (.postAttn layer) x >>= fun x =>
      p.toFfn layer x >>= p.settle (.postFfn layer) := by
  unfold layerStep toAttn toFfn attnOutput feedForward settle
  cases index p.weights.layers layer with
  | error stop => rfl
  | ok blk => simp only [lift_ok, pure_bind, bind_assoc]

theorem logits_eq (x : Tensor F) :
    p.logits x = p.toHead x >>= fun v => p.settle .preLmHead v >>= fun v => p.toLogits v >>= fun y =>
      p.settle .postLmHead y >>= fun y => lift (vectorTensor y p.cfg.vocabSize) := by
  unfold logits toHead toLogits settle
  simp only [bind_assoc, pure_bind]

/-- The layers up to `l`, the layer `l`, and the rest. -/
theorem layers_eq {l : Nat} (hl : l < p.cfg.nLayers) (x : Tensor F) :
    forRange p.cfg.nLayers p.layerStep x = forRange l p.layerStep x >>= fun x => p.layerStep l x >>=
      forFrom (l + 1) (p.cfg.nLayers - (l + 1)) p.layerStep := by
  obtain ⟨rest, hrest⟩ := Nat.exists_eq_add_of_lt hl
  have hleft : p.cfg.nLayers - (l + 1) = rest := by omega
  have htotal : p.cfg.nLayers = l + (rest + 1) := by omega
  rw [hleft, forRange, htotal, forFrom_add, Nat.zero_add]
  rfl

/-- Wherever it is cut, the parts make up the step. -/
theorem forward_eq (token : UInt32) {s : Site} (hs : s.Valid p.cfg.nLayers) :
    p.forward token = p.reach token s >>= fun v => p.settle s v >>= p.next s := by
  cases s with
  | postEmbed =>
    unfold forward reach next
    rw [embed_eq, bind_assoc]
  | postAttn l =>
    unfold forward reach next throughLayers
    simp only [layers_eq p hs, layerStep_eq, bind_assoc]
  | postFfn l =>
    unfold forward reach next throughLayers
    simp only [layers_eq p hs, layerStep_eq, bind_assoc]
  | preLmHead =>
    unfold forward reach next throughLayers
    simp only [logits_eq, bind_assoc]
  | postLmHead =>
    unfold forward reach next throughLayers
    simp only [logits_eq, bind_assoc]

end Pass

end VitniTensor
