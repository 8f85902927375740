import VitniTensor.Lib.Watched
import VitniTensor.Model.CachedStep

/-!
# What a step tells

The observers of a step are told of its operations and of its activations. Which ones, and in
which order, depends on the step alone, and a step that returned told of one chain of vectors: what
one operation wrote, the next one read.
-/

namespace VitniTensor

open Outcome Exec

variable {F : Type} [F32 F]

/-! ### Events -/

/-- An operation, as the recorder is told of it. -/
structure Operation (F : Type) where
  opName : String
  layer : UInt32
  paramsKey : String
  input : List F
  output : List F

inductive Event (F : Type) where
  | op (o : Operation F)
  | activation (a : LensEntry F)
  | residual (a : LensEntry F)

namespace Event

def op? : Event F → Option (Operation F)
  | .op o => some o
  | _ => none

def activation? : Event F → Option (LensEntry F)
  | .activation a => some a
  | _ => none

end Event

namespace Observers

/-- What the observers make of an event. -/
def see (blake3 : Blake3) (w : Observers F) : Event F → Observers F
  | .op o =>
    { w with recorder := w.recorder.map (·.record blake3 o.opName o.layer o.paramsKey o.input o.output) }
  | .activation a =>
    { w with actRecorder := w.actRecorder.map (·.record blake3 a.tokenIndex a.layer a.checkpoint a.residualStream) }
  | .residual a =>
    { w with lens := w.lens.map (·.push a.tokenIndex a.layer a.checkpoint a.residualStream) }

/-- The recorder sees the operations only. -/
theorem recorder_foldl_see (blake3 : Blake3) (events : List (Event F)) (w : Observers F) :
    (events.foldl (see blake3) w).recorder = w.recorder.map fun rec =>
      (events.filterMap Event.op?).foldl
        (fun rec o => rec.record blake3 o.opName o.layer o.paramsKey o.input o.output) rec := by
  induction events generalizing w with
  | nil => simp only [List.foldl_nil, List.filterMap_nil, Option.map_id']
  | cons e events ih =>
    rw [List.foldl_cons, ih]
    cases e with
    | op o =>
      unfold see
      rw [Option.map_map]
      rfl
    | activation a => rfl
    | residual a => rfl

/-- The activation recorder sees the activations only. -/
theorem actRecorder_foldl_see (blake3 : Blake3) (events : List (Event F)) (w : Observers F) :
    (events.foldl (see blake3) w).actRecorder = w.actRecorder.map fun ar =>
      (events.filterMap Event.activation?).foldl
        (fun ar a => ar.record blake3 a.tokenIndex a.layer a.checkpoint a.residualStream) ar := by
  induction events generalizing w with
  | nil => simp only [List.foldl_nil, List.filterMap_nil, Option.map_id']
  | cons e events ih =>
    rw [List.foldl_cons, ih]
    cases e with
    | op o => rfl
    | activation a =>
      unfold see
      rw [Option.map_map]
      rfl
    | residual a => rfl

end Observers

/-! ### Weights -/

/-- The parameters of a recorded operation. -/
inductive Weight (F : Type) where
  | norm (ws : List F)
  | matrix (w : QuantTensor)

namespace Weight

def hash (blake3 : Blake3) : Weight F → Hash
  | .norm ws => hashF32Slice blake3 ws
  | .matrix w => blake3 w.bytes

/-- With these parameters, a step computes `output` from `input`. -/
def Applies (p : Pass F) (input output : List F) : Weight F → Prop
  | .norm ws => ∃ x, tensorAsF32 x = .ok input ∧ Causal.normalized p x ws = .ok output
  | .matrix w => ∃ inFeat outFeat, Causal.linear p input w inFeat outFeat = .ok output

end Weight

/-- An operation of the model: its name, where it belongs, and its parameters under their key. -/
structure OpUse (F : Type) where
  opName : String
  layer : UInt32
  paramsKey : String
  weight : Weight F

def OpUse.rmsNorm (layer : UInt32) (paramsKey : String) (ws : List F) : OpUse F :=
  ⟨"rms_norm", layer, paramsKey, .norm ws⟩

def OpUse.linear (layer : UInt32) (paramsKey : String) (w : QuantTensor) : OpUse F :=
  ⟨"linear_q4_0", layer, paramsKey, .matrix w⟩

/-- The operation `o` is this one, on vectors that the step computed. -/
structure OpUse.Told (p : Pass F) (use : OpUse F) (o : Operation F) : Prop where
  opName : o.opName = use.opName
  layer : o.layer = use.layer
  paramsKey : o.paramsKey = use.paramsKey
  applies : use.weight.Applies p o.input o.output

open PerOpRecorder in
/-- The operations of a layer, in their order. -/
def layerUses (layer : Nat) (blk : QuantLayer F) : List (OpUse F) :=
  let l := UInt32.ofNat layer
  [.rmsNorm l (paramsKey "rms_att" layer) blk.rmsAttWeight, .linear l (paramsKey "wq" layer) blk.wq,
    .linear l (paramsKey "wk" layer) blk.wk, .linear l (paramsKey "wv" layer) blk.wv,
    .linear l (paramsKey "wo" layer) blk.wo, .rmsNorm l (paramsKey "rms_ffn" layer) blk.rmsFfnWeight,
    .linear l (paramsKey "w1" layer) blk.w1, .linear l (paramsKey "w3" layer) blk.w3,
    .linear l (paramsKey "w2" layer) blk.w2]

/-- The operations behind the last layer. -/
def headUses (weights : QuantizedWeights F) : List (OpUse F) :=
  [.rmsNorm noLayer "rms_final" weights.rmsFinalWeight,
    match weights.wcls with
    | some wcls => .linear noLayer "wcls" wcls
    | none => .linear noLayer "token_embd" weights.tokenEmbeddingTable]

/-- The operations of a step. -/
def stepUses (weights : QuantizedWeights F) : List (OpUse F) :=
  weights.layers.zipIdx.flatMap (fun blk => layerUses blk.2 blk.1) ++ headUses weights

/-! ### Replacements -/

namespace Pass

variable (p : Pass F)

/-- What the plan holds for a checkpoint where vectors have length `n`: the entry that it looks up,
unless that one has another length. -/
def replacement? (layer : UInt32) (checkpoint : String) (n : Nat) : Option (List F) :=
  (p.plan.bind fun plan => plan.lookup p.posU32 layer checkpoint).filter fun r => r.length = n

variable {p} {layer : UInt32} {name : String} {n : Nat} {α : Type} {make : List F → Res α} {x : α}

omit [F32 F] in
theorem intervene_eq : p.intervene layer name n make x =
    match p.replacement? layer name n with
    | some r => make r
    | none => .ok x := by
  unfold intervene replacement?
  cases p.plan with
  | none => rfl
  | some plan =>
    rw [Option.bind_some]
    dsimp only
    cases plan.lookup p.posU32 layer name with
    | none => rfl
    | some r =>
      by_cases hr : r.length = n
      · simp only [hr, if_true, Option.filter_some, decide_true]
      · simp only [hr, if_false, Option.filter_some, decide_false, Bool.false_eq_true]

end Pass

/-! ### Chains of vectors -/

/-- The vectors of one layer, in the order in which it computes them. -/
structure LayerTrace (F : Type) where
  x : List F
  xb : List F
  q : List F
  k : List F
  v : List F
  xbOut : List F
  xb2 : List F
  postAttn : List F
  xbFfn : List F
  gate : List F
  up : List F
  ffnInner : List F
  xbDown : List F
  postFfn : List F

namespace LayerTrace

variable (t : LayerTrace F) (pos : UInt32) (layer : Nat)

open PerOpRecorder

def ops : List (Operation F) :=
  let l := UInt32.ofNat layer
  [⟨"rms_norm", l, paramsKey "rms_att" layer, t.x, t.xb⟩,
    ⟨"linear_q4_0", l, paramsKey "wq" layer, t.xb, t.q⟩,
    ⟨"linear_q4_0", l, paramsKey "wk" layer, t.xb, t.k⟩,
    ⟨"linear_q4_0", l, paramsKey "wv" layer, t.xb, t.v⟩,
    ⟨"linear_q4_0", l, paramsKey "wo" layer, t.xbOut, t.xb2⟩,
    ⟨"rms_norm", l, paramsKey "rms_ffn" layer, t.postAttn, t.xbFfn⟩,
    ⟨"linear_q4_0", l, paramsKey "w1" layer, t.xbFfn, t.gate⟩,
    ⟨"linear_q4_0", l, paramsKey "w3" layer, t.xbFfn, t.up⟩,
    ⟨"linear_q4_0", l, paramsKey "w2" layer, t.ffnInner, t.xbDown⟩]

def activations : List (LensEntry F) :=
  let l := UInt32.ofNat layer
  [⟨pos, l, "post_attn", t.postAttn⟩, ⟨pos, l, "post_ffn", t.postFfn⟩]

/-- Operations and checkpoints as they alternate. -/
def events : List (Event F) :=
  let l := UInt32.ofNat layer
  ((t.ops layer).take 4).map .op ++ [.residual ⟨pos, l, "pre_wo", t.xbOut⟩] ++
    (((t.ops layer).drop 4).take 1).map .op ++
    [.activation ⟨pos, l, "post_attn", t.postAttn⟩, .residual ⟨pos, l, "post_attn", t.postAttn⟩] ++
    ((t.ops layer).drop 5).map .op ++
    [.activation ⟨pos, l, "post_ffn", t.postFfn⟩, .residual ⟨pos, l, "post_ffn", t.postFfn⟩]

omit [F32 F] in
theorem length_ops : (t.ops layer).length = 9 := rfl

omit [F32 F] in
theorem length_activations : (t.activations pos layer).length = 2 := rfl

end LayerTrace

/-- The vectors of a step. -/
structure StepTrace (F : Type) where
  postEmbed : List F
  layers : List (LayerTrace F)
  x : List F
  xFinal : List F
  preLmHead : List F
  logits : List F
  postLmHead : List F

namespace StepTrace

variable (p : Pass F) (t : StepTrace F)

def ops : List (Operation F) :=
  t.layers.zipIdx.flatMap (fun l => l.1.ops l.2) ++
    [⟨"rms_norm", noLayer, "rms_final", t.x, t.xFinal⟩,
      ⟨"linear_q4_0", noLayer, p.lmHead.2, t.preLmHead, t.logits⟩]

def activations : List (LensEntry F) :=
  [⟨p.posU32, noLayer, "post_embed", t.postEmbed⟩] ++
    t.layers.zipIdx.flatMap (fun l => l.1.activations p.posU32 l.2) ++
    [⟨p.posU32, noLayer, "pre_lm_head", t.preLmHead⟩, ⟨p.posU32, noLayer, "post_lm_head", t.postLmHead⟩]

def events : List (Event F) :=
  [.activation ⟨p.posU32, noLayer, "post_embed", t.postEmbed⟩,
    .residual ⟨p.posU32, noLayer, "post_embed", t.postEmbed⟩] ++
    t.layers.zipIdx.flatMap (fun l => l.1.events p.posU32 l.2) ++
    [.op ⟨"rms_norm", noLayer, "rms_final", t.x, t.xFinal⟩,
      .activation ⟨p.posU32, noLayer, "pre_lm_head", t.preLmHead⟩,
      .residual ⟨p.posU32, noLayer, "pre_lm_head", t.preLmHead⟩,
      .op ⟨"linear_q4_0", noLayer, p.lmHead.2, t.preLmHead, t.logits⟩,
      .activation ⟨p.posU32, noLayer, "post_lm_head", t.postLmHead⟩]

omit [F32 F] in
theorem ops_events : (t.events p).filterMap Event.op? = t.ops p := by
  unfold events ops
  rw [List.filterMap_append, List.filterMap_append, List.filterMap_flatMap]
  rfl

omit [F32 F] in
theorem activations_events : (t.events p).filterMap Event.activation? = t.activations p := by
  unfold events activations
  rw [List.filterMap_append, List.filterMap_append, List.filterMap_flatMap]
  rfl

/-- A vector that the plan holds for this activation is the activation. -/
def Honours (a : LensEntry F) (n : Nat) : Prop :=
  ∀ r, p.replacement? a.layer a.checkpoint n = some r → a.residualStream = r

/-- The vectors that a step computes. Each layer starts from the vector of the checkpoint before
it, and the final norm from the last one. -/
structure Computed : Prop where
  length : t.layers.length = p.cfg.nLayers
  chain : t.layers.map (·.x) ++ [t.x] = t.postEmbed :: t.layers.map (·.postFfn)
  told : List.Forall₂ (OpUse.Told p) ((p.weights.layers.take p.cfg.nLayers).zipIdx.flatMap
    (fun blk => layerUses blk.2 blk.1) ++ headUses p.weights) (t.ops p)
  honoured : ∀ a ∈ t.activations p,
    Honours p a (if a.checkpoint = "post_lm_head" then p.cfg.vocabSize else p.cfg.dim)
  kept : p.replacement? noLayer "pre_lm_head" p.cfg.dim = none → t.preLmHead = t.xFinal

end StepTrace

end VitniTensor
