import VitniTensor.Model.Interventions

/-!
# Interventions act forward only

The two-run law, put together: where two runs can first differ, what they have in common when they
end, and what happens at the checkpoint itself.
-/

namespace VitniTensor

open Outcome Exec

variable {F : Type} [F32 F] {p : Pass F}

/-! ### What observers hold is kept -/

namespace Observers

/-- The records and entries of `w` are still there in `w'`, and come first. -/
structure Kept (w w' : Observers F) : Prop where
  ops : ∀ rec, w.recorder = some rec → ∃ rec', w'.recorder = some rec' ∧ rec.builder.ops <+: rec'.builder.ops
  activations : ∀ ar, w.actRecorder = some ar →
    ∃ ar', w'.actRecorder = some ar' ∧ ar.builder.activations <+: ar'.builder.activations
  entries : ∀ lc, w.lens = some lc → ∃ lc', w'.lens = some lc' ∧ lc.entries <+: lc'.entries

omit [F32 F] in
theorem Kept.refl (w : Observers F) : Kept w w :=
  ⟨fun rec h => ⟨rec, h, List.prefix_rfl⟩, fun ar h => ⟨ar, h, List.prefix_rfl⟩,
    fun lc h => ⟨lc, h, List.prefix_rfl⟩⟩

omit [F32 F] in
theorem Kept.trans {w w' w'' : Observers F} (h : Kept w w') (h' : Kept w' w'') : Kept w w'' := by
  constructor
  · intro rec hrec
    obtain ⟨rec', hrec', hops⟩ := h.ops rec hrec
    obtain ⟨rec'', hrec'', hops'⟩ := h'.ops rec' hrec'
    exact ⟨rec'', hrec'', hops.trans hops'⟩
  · intro ar har
    obtain ⟨ar', har', hacts⟩ := h.activations ar har
    obtain ⟨ar'', har'', hacts'⟩ := h'.activations ar' har'
    exact ⟨ar'', har'', hacts.trans hacts'⟩
  · intro lc hlc
    obtain ⟨lc', hlc', hentries⟩ := h.entries lc hlc
    obtain ⟨lc'', hlc'', hentries'⟩ := h'.entries lc' hlc'
    exact ⟨lc'', hlc'', hentries.trans hentries'⟩

theorem kept_see (blake3 : Blake3) (w : Observers F) (e : Event F) : Kept w (w.see blake3 e) := by
  cases e with
  | op o =>
    refine ⟨fun rec h => ⟨_, congrArg (Option.map _) h, List.prefix_append _ _⟩, fun ar h => ⟨ar, h, List.prefix_rfl⟩,
      fun lc h => ⟨lc, h, List.prefix_rfl⟩⟩
  | activation a =>
    refine ⟨fun rec h => ⟨rec, h, List.prefix_rfl⟩, fun ar h => ⟨_, congrArg (Option.map _) h, List.prefix_append _ _⟩,
      fun lc h => ⟨lc, h, List.prefix_rfl⟩⟩
  | residual a =>
    refine ⟨fun rec h => ⟨rec, h, List.prefix_rfl⟩, fun ar h => ⟨ar, h, List.prefix_rfl⟩,
      fun lc h => ⟨_, congrArg (Option.map _) h, List.prefix_append _ _⟩⟩

theorem kept_foldl_see (blake3 : Blake3) (events : List (Event F)) (w : Observers F) :
    Kept w (events.foldl (see blake3) w) := by
  induction events generalizing w with
  | nil => exact .refl w
  | cons e events ih => exact (kept_see blake3 w e).trans (ih _)

end Observers

/-! ### The parts of a step keep it -/

section Grows

abbrev Pass.Grows {α : Type} (p : Pass F) (m : Step F α) : Prop :=
  Exec.Grows (Observers.see p.blake3) m

theorem grows_recordOp (opName : String) (layer : UInt32) (key : String) (input : Res (List F)) (output : List F) :
    p.Grows (p.recordOp opName layer key input output) := by
  refine ⟨fun ⟨run, w⟩ => ?_⟩
  cases input with
  | ok xs =>
    rw [eval_recordOp opName layer key xs output run w]
    exact ⟨[.op ⟨opName, layer, key, xs, output⟩], rfl⟩
  | error stop =>
    refine ⟨[], ?_⟩
    unfold Pass.recordOp
    rw [eval_bind_ok (eval_state _)]
    rcases w with ⟨rec | rec, act, lens⟩ <;> rfl

theorem grows_snapshot (layer : UInt32) (name : String) (tensor : Res (List F)) :
    p.Grows (p.snapshot layer name tensor) := by
  refine ⟨fun ⟨run, w⟩ => ?_⟩
  cases tensor with
  | ok xs =>
    rw [eval_snapshot layer name xs run w]
    exact ⟨[.activation ⟨p.posU32, layer, name, xs⟩], rfl⟩
  | error stop =>
    refine ⟨[], ?_⟩
    unfold Pass.snapshot
    rw [eval_bind_ok (eval_state _)]
    rcases w with ⟨rec, act | act, lens⟩ <;> rfl

theorem grows_capture (layer : UInt32) (name : String) (residual : Res (List F)) :
    p.Grows (p.capture layer name residual) := by
  refine ⟨fun ⟨run, w⟩ => ?_⟩
  cases residual with
  | ok xs =>
    rw [eval_capture layer name xs run w]
    exact ⟨[.residual ⟨p.posU32, layer, name, xs⟩], rfl⟩
  | error stop =>
    refine ⟨[], ?_⟩
    unfold Pass.capture
    rw [eval_bind_ok (eval_state _)]
    rcases w with ⟨rec, act, lens | lens⟩ <;> rfl

theorem grows_checkpoint (layer : UInt32) (name : String) (x : Tensor F) : p.Grows (p.checkpoint layer name x) := by
  unfold Pass.checkpoint
  refine .bind (.lift _) fun x => ?_
  refine .bind (grows_snapshot ..) fun _ => ?_
  exact .bind (grows_capture ..) fun _ => .pure x

theorem grows_rmsNorm (layer : UInt32) (key : String) (x : Tensor F) (ws : List F) :
    p.Grows (p.rmsNorm layer key x ws) := by
  unfold Pass.rmsNorm
  refine .bind (.lift _) fun xb => ?_
  refine .bind (.lift _) fun xbVec => ?_
  exact .bind (grows_recordOp ..) fun _ => .pure xbVec

theorem grows_linear (layer : UInt32) (key : String) (x : List F) (w : QuantTensor) (inFeat outFeat : Nat) :
    p.Grows (p.linear layer key x w inFeat outFeat) := by
  unfold Pass.linear
  refine .bind (.lift _) fun y => ?_
  exact .bind (grows_recordOp ..) fun _ => .pure y

theorem grows_project (layer : Nat) (blk : QuantLayer F) (x : Tensor F) : p.Grows (p.project layer blk x) := by
  unfold Pass.project
  refine .bind (grows_rmsNorm ..) fun xb => ?_
  refine .bind (.lift _) fun outDim => ?_
  refine .bind (grows_linear ..) fun q => ?_
  refine .bind (grows_linear ..) fun k => ?_
  exact .bind (grows_linear ..) fun v => .pure _

theorem grows_cacheRow (layer : Nat) (k v : List F) : p.Grows (p.cacheRow layer k v) := by
  unfold Pass.cacheRow
  refine .bind .state fun s => ?_
  refine .bind (.lift _) fun keys => ?_
  refine .bind (.update fun run : RunState F => { run with keyCache := keys }) fun _ => ?_
  refine .bind (.lift _) fun values => ?_
  exact .update fun run : RunState F => { run with valueCache := values }

theorem grows_rope (layer : Nat) (q : List F) : p.Grows (p.rope layer q) := by
  unfold Pass.rope
  refine .bind .state fun s => ?_
  refine .bind (.lift _) fun qk => ?_
  exact .bind (.update fun run : RunState F => { run with keyCache := qk.2 }) fun _ => .pure _

theorem grows_toAttn (layer : Nat) (x : Tensor F) : p.Grows (p.toAttn layer x) := by
  unfold Pass.toAttn
  refine .bind (.lift _) fun blk => ?_
  refine .bind (grows_project ..) fun qkv => ?_
  refine .bind (grows_cacheRow ..) fun _ => ?_
  refine .bind (grows_rope ..) fun q => ?_
  refine .bind .state fun s => ?_
  refine .bind (.lift _) fun xbOut => ?_
  refine .bind (grows_capture ..) fun _ => ?_
  refine .bind (grows_linear ..) fun xb2Vec => ?_
  exact .bind (.lift _) fun xb2 => .lift _

theorem grows_toFfn (layer : Nat) (x : Tensor F) : p.Grows (p.toFfn layer x) := by
  unfold Pass.toFfn
  refine .bind (.lift _) fun blk => ?_
  refine .bind (grows_rmsNorm ..) fun xb => ?_
  refine .bind (grows_linear ..) fun gate => ?_
  refine .bind (grows_linear ..) fun up => ?_
  refine .bind (.lift _) fun inner => ?_
  refine .bind (grows_linear ..) fun downVec => ?_
  exact .bind (.lift _) fun down => .lift _

theorem grows_settle (s : Site) (v : s.Held F) : p.Grows (p.settle s v) := by
  cases s with
  | postEmbed => exact grows_checkpoint ..
  | postAttn l => exact grows_checkpoint ..
  | postFfn l => exact grows_checkpoint ..
  | preLmHead =>
    refine .bind (.lift _) fun v => ?_
    refine .bind (grows_snapshot ..) fun _ => ?_
    exact .bind (grows_capture ..) fun _ => .pure v
  | postLmHead =>
    refine .bind (.lift _) fun v => ?_
    exact .bind (grows_snapshot ..) fun _ => .pure v

theorem grows_layerStep (layer : Nat) (x : Tensor F) : p.Grows (p.layerStep layer x) := by
  rw [Pass.layerStep_eq]
  refine .bind (grows_toAttn ..) fun x => ?_
  refine .bind (grows_settle (.postAttn layer) x) fun x => ?_
  exact .bind (grows_toFfn ..) fun x => grows_settle (.postFfn layer) x

theorem grows_logits (x : Tensor F) : p.Grows (p.logits x) := by
  rw [Pass.logits_eq]
  refine .bind (grows_rmsNorm ..) fun v => ?_
  refine .bind (grows_settle .preLmHead v) fun v => ?_
  refine .bind (grows_linear ..) fun y => ?_
  exact .bind (grows_settle .postLmHead y) fun y => .lift _

theorem grows_next (s : Site) (v : s.Held F) : p.Grows (p.next s v) := by
  cases s with
  | postEmbed => exact .bind (.loop grows_layerStep v) fun x => grows_logits x
  | postAttn l =>
    refine .bind (grows_toFfn l v) fun x => ?_
    refine .bind (grows_settle (.postFfn l) x) fun x => ?_
    exact .bind (.loop grows_layerStep x) fun x => grows_logits x
  | postFfn l => exact .bind (.loop grows_layerStep v) fun x => grows_logits x
  | preLmHead =>
    refine .bind (grows_linear ..) fun y => ?_
    exact .bind (grows_settle .postLmHead y) fun y => .lift _
  | postLmHead => exact .lift _

variable {build : Build} {blake3 : Blake3} {cfg : Config} {weights : QuantizedWeights F}
  {plan : Option (InterventionPlan F)}

theorem grows_stepWithRecorders (token : UInt32) (pos : Nat) :
    Exec.Grows (Observers.see blake3) (stepWithRecorders build blake3 cfg weights plan token pos) := by
  refine ⟨fun ⟨run, w⟩ => ?_⟩
  unfold stepWithRecorders
  rw [eval_bind_ok (eval_state _)]
  dsimp only
  cases hp : passOf build blake3 cfg weights plan pos run.regime with
  | error stop => exact ⟨[], rfl⟩
  | ok p =>
    have hforward : p.Grows (p.forward token) := by
      rw [Pass.forward_eq p token (s := .postEmbed) trivial]
      refine .bind (.bind (.lift _) fun row => .lift _) fun x => ?_
      exact .bind (grows_settle .postEmbed x) fun x => grows_next .postEmbed x
    rw [← (passOf_fields hp).1]
    exact hforward.told (run, w)

theorem grows_forwardAll (calls : List (UInt32 × Nat)) :
    Exec.Grows (Observers.see blake3) (forwardAll (stepWithRecorders build blake3 cfg weights plan) calls) := by
  induction calls with
  | nil => exact .pure []
  | cons call calls ih =>
    unfold forwardAll
    refine .bind (grows_stepWithRecorders ..) fun y => ?_
    exact .bind ih fun ys => .pure _

end Grows

/-! ### At a checkpoint -/

namespace Site

/-- What the observers are shown there of a vector: the lens does not see the logits. -/
def shown (pos : UInt32) (xs : List F) (s : Site) : List (Event F) :=
  .activation ⟨pos, s.layer, s.checkpoint, xs⟩ ::
    if s = .postLmHead then [] else [.residual ⟨pos, s.layer, s.checkpoint, xs⟩]

/-- A vector as the step holds it there. -/
def hold (cfg : Config) : (s : Site) → List F → Res (s.Held F)
  | postEmbed, xs | postAttn _, xs | postFfn _, xs => vectorTensor xs cfg.dim
  | preLmHead, xs | postLmHead, xs => .ok xs

omit [F32 F] in
theorem vector_hold {cfg : Config} {s : Site} {xs : List F} {v : s.Held F} (h : s.hold cfg xs = .ok v) :
    s.vector v = .ok xs := by
  cases s with
  | postEmbed => exact vectorTensor_asF32 h
  | postAttn l => exact vectorTensor_asF32 h
  | postFfn l => exact vectorTensor_asF32 h
  | preLmHead => cases h; rfl
  | postLmHead => cases h; rfl

end Site

namespace Pass

/-- Telling the observers. -/
def tell (p : Pass F) (events : List (Event F)) : Step F Unit :=
  Exec.update fun t => (t.1, events.foldl (Observers.see p.blake3) t.2)

theorem eval_tell (events : List (Event F)) (run : RunState F) (w : Observers F) :
    (p.tell events).eval (run, w) = (.ok (), (run, events.foldl (Observers.see p.blake3) w)) := rfl

theorem checkpoint_replaced {layer : UInt32} {name : String} {r : List F} (x : Tensor F)
    (h : p.replacement? layer name p.cfg.dim = some r) :
    p.checkpoint layer name x = Exec.lift (vectorTensor r p.cfg.dim) >>= fun x' =>
      p.tell [.activation ⟨p.posU32, layer, name, r⟩, .residual ⟨p.posU32, layer, name, r⟩] >>= fun _ => pure x' := by
  unfold checkpoint
  rw [intervene_eq, h]
  refine lift_bind_congr fun x' hx' => ?_
  rw [vectorTensor_asF32 hx']
  ext ⟨run, w⟩ : 1
  rw [eval_bind_ok (eval_snapshot ..), eval_bind_ok (eval_capture ..), eval_bind_ok (eval_tell ..)]
  rfl

/-- A vector that the plan holds for a checkpoint is what the observers are shown and what the step
goes on with; the vector that was computed plays no part. -/
theorem settle_replaced {plan : Option (InterventionPlan F)} {s : Site} {r : List F}
    (h : replacementAt p.cfg plan p.pos s = some r) (v : s.Held F) :
    (p.under plan).settle s v = Exec.lift (s.hold p.cfg r) >>= fun v' =>
      p.tell (s.shown p.posU32 r) >>= fun _ => pure v' := by
  cases s with
  | postEmbed => exact checkpoint_replaced v h
  | postAttn l => exact checkpoint_replaced v h
  | postFfn l => exact checkpoint_replaced v h
  | preLmHead =>
    unfold settle
    dsimp only
    rw [intervene_eq]
    have h' : (p.under plan).replacement? noLayer "pre_lm_head" (p.under plan).cfg.dim = some r := h
    rw [h']
    refine lift_bind_congr fun v' hv' => ?_
    cases hv'
    ext ⟨run, w⟩ : 1
    rw [eval_bind_ok (eval_snapshot ..), eval_bind_ok (eval_capture ..), eval_bind_ok (eval_tell ..)]
    rfl
  | postLmHead =>
    unfold settle
    dsimp only
    rw [intervene_eq]
    have h' : (p.under plan).replacement? noLayer "post_lm_head" (p.under plan).cfg.vocabSize = some r := h
    rw [h']
    refine lift_bind_congr fun v' hv' => ?_
    cases hv'
    ext ⟨run, w⟩ : 1
    rw [eval_bind_ok (eval_snapshot ..), eval_bind_ok (eval_tell ..)]
    rfl

end Pass

/-- The events behind a checkpoint: the next operation reads this vector. Behind the logits there are
none. -/
def Site.Feeds (xs : List F) (after : List (Event F)) : Site → Prop
  | postLmHead => after = []
  | postEmbed | postAttn _ | postFfn _ | preLmHead => ∃ o rest, after = .op o :: rest ∧ o.input = xs

namespace StepTrace

variable {t : StepTrace F}

/-- The events of the layers from `l` on, and of the head. -/
def eventsFrom (p : Pass F) (t : StepTrace F) (l : Nat) : List (Event F) :=
  (t.layers.zipIdx.drop l).flatMap (fun l => l.1.events p.posU32 l.2) ++
    [.op ⟨"rms_norm", noLayer, "rms_final", t.x, t.xFinal⟩,
      .activation ⟨p.posU32, noLayer, "pre_lm_head", t.preLmHead⟩,
      .residual ⟨p.posU32, noLayer, "pre_lm_head", t.preLmHead⟩,
      .op ⟨"linear_q4_0", noLayer, p.lmHead.2, t.preLmHead, t.logits⟩,
      .activation ⟨p.posU32, noLayer, "post_lm_head", t.postLmHead⟩]

omit [F32 F] in
theorem events_eq (p : Pass F) (t : StepTrace F) :
    t.events p = Site.shown p.posU32 t.postEmbed .postEmbed ++ t.eventsFrom p 0 := by
  unfold events eventsFrom
  rw [List.append_assoc]
  rfl

omit [F32 F] in
theorem eventsFrom_layer {l : Nat} {tl : LayerTrace F} (hl : t.layers[l]? = some tl) :
    t.eventsFrom p l = tl.events p.posU32 l ++ t.eventsFrom p (l + 1) := by
  obtain ⟨hlt, hget⟩ := List.getElem?_eq_some_iff.mp hl
  have hlt' : l < t.layers.zipIdx.length := by rwa [List.length_zipIdx]
  have hhead : t.layers.zipIdx[l] = (tl, l) := by
    rw [List.getElem_zipIdx, hget, Nat.zero_add]
  unfold eventsFrom
  rw [List.drop_eq_getElem_cons hlt', hhead, List.flatMap_cons, List.append_assoc]

omit [F32 F] in
theorem eventsFrom_length (p : Pass F) (t : StepTrace F) : t.eventsFrom p t.layers.length =
    [.op ⟨"rms_norm", noLayer, "rms_final", t.x, t.xFinal⟩,
      .activation ⟨p.posU32, noLayer, "pre_lm_head", t.preLmHead⟩,
      .residual ⟨p.posU32, noLayer, "pre_lm_head", t.preLmHead⟩,
      .op ⟨"linear_q4_0", noLayer, p.lmHead.2, t.preLmHead, t.logits⟩,
      .activation ⟨p.posU32, noLayer, "post_lm_head", t.postLmHead⟩] := by
  have hdrop : t.layers.zipIdx.drop t.layers.length = [] :=
    List.drop_eq_nil_of_le (Nat.le_of_eq List.length_zipIdx)
  unfold eventsFrom
  rw [hdrop, List.flatMap_nil, List.nil_append]

omit [F32 F] in
/-- The next norm reads the vector of the checkpoint before it. -/
theorem eventsFrom_feeds {l : Nat} {xs : List F} (hxs : (t.layers.map (·.x) ++ [t.x])[l]? = some xs) :
    ∃ o rest, t.eventsFrom p l = .op o :: rest ∧ o.input = xs := by
  cases hl : t.layers[l]? with
  | some tl =>
    obtain ⟨hlt, -⟩ := List.getElem?_eq_some_iff.mp hl
    rw [List.getElem?_append_left (by rwa [List.length_map]), List.getElem?_map, hl] at hxs
    rw [eventsFrom_layer hl]
    exact ⟨_, _, rfl, Option.some.inj hxs⟩
  | none =>
    have hle := List.getElem?_eq_none_iff.mp hl
    have hsame : l = t.layers.length := by
      have hlt := (List.getElem?_eq_some_iff.mp hxs).1
      rw [List.length_append, List.length_map, List.length_singleton] at hlt
      omega
    rw [hsame, List.getElem?_append_right (by rw [List.length_map]), List.length_map, Nat.sub_self] at hxs
    rw [hsame, eventsFrom_length]
    exact ⟨_, _, rfl, Option.some.inj hxs⟩

omit [F32 F] in
/-- The events of the layers before `l`. -/
theorem events_upTo (p : Pass F) (t : StepTrace F) (l : Nat) :
    ∃ before, t.events p = before ++ t.eventsFrom p l := by
  rw [events_eq]
  refine ⟨Site.shown p.posU32 t.postEmbed .postEmbed ++
    (t.layers.zipIdx.take l).flatMap fun l => l.1.events p.posU32 l.2, ?_⟩
  unfold eventsFrom
  rw [List.append_assoc, ← List.append_assoc (List.flatMap _ _), ← List.flatMap_append, List.take_append_drop,
    List.drop_zero]

/-- Where a step shows the vector of a checkpoint, and what comes next. -/
theorem events_at (ht : t.Computed p) {s : Site} (hs : s.Valid p.cfg.nLayers) :
    ∃ xs before after, t.events p = before ++ (s.shown p.posU32 xs ++ after) ∧
      ⟨p.posU32, s.layer, s.checkpoint, xs⟩ ∈ t.activations p ∧ s.Feeds xs after ∧
      (s = .postLmHead → xs = t.postLmHead) := by
  have hlayer : ∀ l < p.cfg.nLayers, ∃ tl, t.layers[l]? = some tl := fun l hl =>
    ⟨_, List.getElem?_eq_getElem (by rw [ht.length]; exact hl)⟩
  have hmem : ∀ {l : Nat} {tl : LayerTrace F} {a : LensEntry F}, t.layers[l]? = some tl → a ∈ tl.activations p.posU32 l →
      a ∈ t.activations p := by
    intro l tl a hl ha
    refine List.mem_append_left _ (List.mem_append_right _ ?_)
    exact List.mem_flatMap.mpr ⟨(tl, l), List.mem_zipIdx_iff_getElem?.mpr hl, ha⟩
  cases s with
  | postEmbed =>
    have hfeeds := @eventsFrom_feeds F p t 0 t.postEmbed (by rw [ht.chain]; rfl)
    exact ⟨t.postEmbed, [], _, t.events_eq p, List.mem_append_left _ (List.mem_append_left _ List.mem_cons_self),
      hfeeds, fun h => nomatch h⟩
  | postAttn l =>
    obtain ⟨tl, htl⟩ := hlayer l hs
    obtain ⟨before, hbefore⟩ := t.events_upTo p l
    refine ⟨tl.postAttn, before ++ (tl.events p.posU32 l).take 6,
      (tl.events p.posU32 l).drop 8 ++ t.eventsFrom p (l + 1), ?_, hmem htl List.mem_cons_self, ⟨_, _, rfl, rfl⟩,
      fun h => nomatch h⟩
    rw [hbefore, eventsFrom_layer htl, List.append_assoc]
    rfl
  | postFfn l =>
    obtain ⟨tl, htl⟩ := hlayer l hs
    obtain ⟨before, hbefore⟩ := t.events_upTo p l
    have hnext : (t.layers.map (·.x) ++ [t.x])[l + 1]? = some tl.postFfn := by
      rw [ht.chain, List.getElem?_cons_succ, List.getElem?_map, htl]
      rfl
    refine ⟨tl.postFfn, before ++ (tl.events p.posU32 l).take 12, t.eventsFrom p (l + 1), ?_,
      hmem htl (List.mem_cons_of_mem _ List.mem_cons_self), eventsFrom_feeds hnext, fun h => nomatch h⟩
    rw [hbefore, eventsFrom_layer htl, List.append_assoc]
    rfl
  | preLmHead =>
    obtain ⟨before, hbefore⟩ := t.events_upTo p t.layers.length
    refine ⟨t.preLmHead, before ++ [.op ⟨"rms_norm", noLayer, "rms_final", t.x, t.xFinal⟩],
      [.op ⟨"linear_q4_0", noLayer, p.lmHead.2, t.preLmHead, t.logits⟩,
        .activation ⟨p.posU32, noLayer, "post_lm_head", t.postLmHead⟩], ?_,
      List.mem_append_right _ List.mem_cons_self, ⟨_, _, rfl, rfl⟩, fun h => nomatch h⟩
    rw [hbefore, eventsFrom_length, List.append_assoc]
    rfl
  | postLmHead =>
    obtain ⟨before, hbefore⟩ := t.events_upTo p t.layers.length
    refine ⟨t.postLmHead, before ++ [.op ⟨"rms_norm", noLayer, "rms_final", t.x, t.xFinal⟩,
      .activation ⟨p.posU32, noLayer, "pre_lm_head", t.preLmHead⟩,
      .residual ⟨p.posU32, noLayer, "pre_lm_head", t.preLmHead⟩,
      .op ⟨"linear_q4_0", noLayer, p.lmHead.2, t.preLmHead, t.logits⟩], [], ?_,
      List.mem_append_right _ (List.mem_cons_of_mem _ List.mem_cons_self), rfl, fun _ => rfl⟩
    rw [hbefore, eventsFrom_length, List.append_assoc]
    rfl

end StepTrace

/-! ### The law -/

section Law

variable {build : Build} {blake3 : Blake3} {cfg : Config} {weights : QuantizedWeights F}
  {plan plan' : Option (InterventionPlan F)}

omit [F32 F] in
theorem passOf_plan {pos : Nat} {regime : UInt8} (h : passOf build blake3 cfg weights plan pos regime = .ok p) :
    p.plan = plan := by
  obtain ⟨kvDim, -, h⟩ := bind_eq_ok.mp h
  obtain ⟨kvMul, -, h⟩ := bind_eq_ok.mp h
  obtain ⟨headSize, -, h⟩ := bind_eq_ok.mp h
  cases h
  rfl

/-- In a step that returned, a vector of the plan was shown, and the next operation read it. -/
theorem replaced_at {token : UInt32} {pos : Nat} {s : Site} {r : List F} (hs : s.Valid cfg.nLayers)
    (hr : replacementAt cfg plan pos s = some r) {run run' : RunState F} {w w' : Observers F} {y : Tensor F}
    (hrun : (stepWithRecorders build blake3 cfg weights plan token pos).eval (run, w) = (.ok y, (run', w'))) :
    ∃ before after, w' = (before ++ (s.shown (UInt32.ofNat pos) r ++ after)).foldl (Observers.see blake3) w ∧
      s.Feeds r after ∧ (s = .postLmHead → tensorAsF32 y = .ok r) := by
  have htells := @tells_stepWithRecorders F _ build blake3 cfg weights plan run token pos
    (fun y _ events => ∃ p t, passOf build blake3 cfg weights plan pos run.regime = .ok p ∧ StepTrace.Computed p t ∧
      tensorAsF32 y = .ok t.postLmHead ∧ events = t.events p) fun p t y _ hp ht hy _ => ⟨p, t, hp, ht, hy, rfl⟩
  obtain ⟨events, rfl, ⟨p, t, hp, ht, hy, rfl⟩, -⟩ := htells.of_eval_ok hrun
  obtain ⟨-, rfl, -, rfl⟩ := passOf_fields hp
  obtain rfl := passOf_plan hp
  obtain ⟨xs, before, after, hevents, hmem, hfeeds, hlogits⟩ := StepTrace.events_at ht hs
  have hwidth : s.width p.cfg = if s.checkpoint = "post_lm_head" then p.cfg.vocabSize else p.cfg.dim := by
    cases s <;> rfl
  have hxs : xs = r := ht.honoured _ hmem r (by rw [← hwidth]; exact hr)
  subst hxs
  refine ⟨before, after, ?_, hfeeds, fun h => ?_⟩
  · rw [hevents]
    rfl
  · rw [hy, hlogits h]

theorem runUntil_blake3 {before : List (UInt32 × Nat)} {call : UInt32 × Nat} {s : Site} {t c : RunState F × Observers F}
    {at_ : List (Tensor F) × Pass F × s.Held F}
    (h : (runUntil build blake3 cfg weights plan before call s).eval t = (.ok at_, c)) : at_.2.1.blake3 = blake3 := by
  obtain ⟨ys, t₁, -, h⟩ := eval_bind_eq_ok.mp h
  obtain ⟨pv, t₂, hstep, h⟩ := eval_bind_eq_ok.mp h
  obtain ⟨_, _, -, hstep⟩ := eval_bind_eq_ok.mp hstep
  obtain ⟨p, _, hp, hstep⟩ := eval_bind_eq_ok.mp hstep
  obtain ⟨v, _, -, hstep⟩ := eval_bind_eq_ok.mp hstep
  cases h
  cases hstep
  exact (passOf_fields (Prod.mk.inj hp).1).1

/-- From `t` the run gets to a checkpoint with `out` and in the state `c`. From there it goes on, or it
stopped before; what the observers hold at `c` they keep. -/
structure RunsThrough (build : Build) (blake3 : Blake3) (cfg : Config) (weights : QuantizedWeights F)
    (plan : Option (InterventionPlan F)) (before : List (UInt32 × Nat)) (call : UInt32 × Nat) (s : Site)
    (after : List (UInt32 × Nat)) (t : RunState F × Observers F)
    (out : Res (List (Tensor F) × Pass F × s.Held F)) (c : RunState F × Observers F) : Prop where
  reached : (runUntil build blake3 cfg weights plan before call s).eval t = (out, c)
  goesOn : ∀ at_, out = .ok at_ →
    (forwardAll (stepWithRecorders build blake3 cfg weights plan) (before ++ call :: after)).eval t =
      (runFrom build blake3 cfg weights plan s after at_).eval c
  stopped : ∀ stop, out = .error stop →
    (forwardAll (stepWithRecorders build blake3 cfg weights plan) (before ++ call :: after)).eval t = (.error stop, c)
  kept : Observers.Kept c.2
    ((forwardAll (stepWithRecorders build blake3 cfg weights plan) (before ++ call :: after)).eval t).2.2

theorem runsThrough {before after : List (UInt32 × Nat)} {call : UInt32 × Nat} {s : Site} (hs : s.Valid cfg.nLayers)
    {t c : RunState F × Observers F} {out : Res (List (Tensor F) × Pass F × s.Held F)}
    (h : (runUntil build blake3 cfg weights plan before call s).eval t = (out, c)) :
    RunsThrough build blake3 cfg weights plan before call s after t out c := by
  cases out with
  | error stop =>
    have hrun : (forwardAll (stepWithRecorders build blake3 cfg weights plan) (before ++ call :: after)).eval t =
        (.error stop, c) := by
      rw [run_cut hs, eval_bind_error h]
    refine ⟨h, fun at_ h => (nomatch h), fun stop' h' => ?_, ?_⟩
    · cases h'
      exact hrun
    · rw [hrun]
      exact .refl c.2
  | ok at_ =>
    have hrun : (forwardAll (stepWithRecorders build blake3 cfg weights plan) (before ++ call :: after)).eval t =
        (runFrom build blake3 cfg weights plan s after at_).eval c := by
      rw [run_cut hs, eval_bind_ok h]
    refine ⟨h, fun at' h' => ?_, fun stop h' => (nomatch h'), ?_⟩
    · cases h'
      exact hrun
    · have hgrows : Exec.Grows (Observers.see blake3) (runFrom build blake3 cfg weights plan s after at_) := by
        have hblake3 : (at_.2.1.under plan).blake3 = blake3 := runUntil_blake3 h
        unfold runFrom
        refine .bind (hblake3 ▸ grows_settle s at_.2.2) fun v => ?_
        refine .bind (hblake3 ▸ grows_next s v) fun y => ?_
        exact .bind (grows_forwardAll after) fun ys => .pure _
      obtain ⟨events, hevents⟩ := hgrows.told c
      rw [hrun, hevents]
      exact Observers.kept_foldl_see blake3 events c.2

omit [F32 F] in
/-- An entry of another length is as good as none. -/
theorem replacementAt_eq_none {pos : Nat} {s : Site}
    (h : ∀ r, lookupAt plan pos s = some r → r.length ≠ s.width cfg) : replacementAt cfg plan pos s = none := by
  unfold replacementAt
  cases hr : lookupAt plan pos s with
  | none => rfl
  | some r =>
    rw [Option.filter_some, if_neg]
    simpa only [decide_eq_true_eq] using h r hr

end Law

/-- Interventions act forward in time. Runs under plans that look up alike before a checkpoint are in
one state when they get to it; an entry of another length than the vector it is to replace does
nothing; and one of the right length is shown, and is what the step goes on with. -/
theorem interventions_act_forward (build : Build) (blake3 : Blake3) (cfg : Config) (weights : QuantizedWeights F) :
    (∀ (plan : InterventionPlan F) tokenIndex layer checkpoint, plan.lookup tokenIndex layer checkpoint =
      (plan.entries.filter (·.isFor tokenIndex layer checkpoint)).getLast?.map (·.replacement)) ∧
    (∀ (plan : InterventionPlan F) tokenIndex layer checkpoint replacement tokenIndex' layer' checkpoint',
      (plan.add tokenIndex layer checkpoint replacement).lookup tokenIndex' layer' checkpoint' =
        if tokenIndex = tokenIndex' ∧ layer = layer' ∧ checkpoint = checkpoint' then some replacement
        else plan.lookup tokenIndex' layer' checkpoint') ∧
    -- two runs
    (∀ (plan plan' : Option (InterventionPlan F)) before call after (s : Site), s.Valid cfg.nLayers →
      (∀ call' ∈ before, ∀ s' : Site, s'.Valid cfg.nLayers → lookupAt plan call'.2 s' = lookupAt plan' call'.2 s') →
      (∀ s' : Site, s'.Valid cfg.nLayers → s'.rank cfg.nLayers < s.rank cfg.nLayers →
        lookupAt plan call.2 s' = lookupAt plan' call.2 s') →
      ∀ t, ∃ out c, RunsThrough build blake3 cfg weights plan before call s after t out c ∧
        RunsThrough build blake3 cfg weights plan' before call s after t out c) ∧
    -- entries of another length
    (∀ (plan plan' : Option (InterventionPlan F)) calls,
      (∀ call ∈ calls, ∀ s : Site, s.Valid cfg.nLayers → lookupAt plan call.2 s = lookupAt plan' call.2 s ∨
        (∀ r, lookupAt plan call.2 s = some r → r.length ≠ s.width cfg) ∧
          ∀ r, lookupAt plan' call.2 s = some r → r.length ≠ s.width cfg) →
      forwardAll (stepWithRecorders build blake3 cfg weights plan) calls =
        forwardAll (stepWithRecorders build blake3 cfg weights plan') calls) ∧
    -- at the checkpoint
    (∀ (p : Pass F) plan (s : Site) r, lookupAt plan p.pos s = some r → r.length = s.width p.cfg → ∀ v,
      (p.under plan).settle s v = (lift (s.hold p.cfg r) >>= fun v' =>
        p.tell (s.shown p.posU32 r) >>= fun _ => pure v') ∧
      ∀ v', s.hold p.cfg r = .ok v' → s.vector v' = .ok r) ∧
    (∀ plan token pos (s : Site) r, s.Valid cfg.nLayers → lookupAt plan pos s = some r → r.length = s.width cfg →
      ∀ run w y run' w', (stepWithRecorders build blake3 cfg weights plan token pos).eval (run, w) =
        (.ok y, (run', w')) →
      ∃ before after, w' = (before ++ (s.shown (UInt32.ofNat pos) r ++ after)).foldl (Observers.see blake3) w ∧
        s.Feeds r after ∧ (s = .postLmHead → tensorAsF32 y = .ok r)) := by
  have hfits : ∀ {cfg : Config} {plan : Option (InterventionPlan F)} {pos : Nat} {s : Site} {r : List F},
      lookupAt plan pos s = some r → r.length = s.width cfg → replacementAt cfg plan pos s = some r := by
    intro cfg plan pos s r hr hlength
    unfold replacementAt
    rw [hr, Option.filter_some, if_pos (decide_eq_true hlength)]
  refine ⟨fun plan => plan.lookup_eq, fun plan => plan.lookup_add, ?_, ?_, ?_, ?_⟩
  · intro plan plan' before call after s hs hbefore hcall t
    have hsame := @runUntil_congr F _ build blake3 cfg weights plan plan' before call s hs
      (fun call' hmem s' hs' => congrArg _ (hbefore call' hmem s' hs'))
      (fun s' hs' hrank => congrArg _ (hcall s' hs' hrank))
    refine ⟨_, _, runsThrough hs rfl, runsThrough hs ?_⟩
    rw [← hsame]
    rfl
  · intro plan plan' calls h
    refine forwardAll_congr fun call hmem s hs => ?_
    rcases h call hmem s hs with hsame | ⟨hleft, hright⟩
    · exact congrArg _ hsame
    · rw [replacementAt_eq_none hleft, replacementAt_eq_none hright]
  · intro p plan s r hr hlength v
    exact ⟨Pass.settle_replaced (hfits hr hlength) v, fun v' => Site.vector_hold⟩
  · intro plan token pos s r hs hr hlength run w y run' w' hrun
    exact replaced_at hs (hfits hr hlength) hrun

/-- One entry, for the embedding at position 1. -/
def onePlan : InterventionPlan Cost :=
  InterventionPlan.new.add 1 noLayer "post_embed" (List.replicate 4 ⟨1⟩)

/-- The step at that position, seen through the lens. -/
def onePlanStep : Res (Tensor Cost) × RunState Cost × Observers Cost :=
  (stepWithRecorders .serial noHash twoHeads zeroWeights (some onePlan) 1 1).eval
    (⟨List.replicate 4 ⟨7⟩, List.replicate 4 ⟨9⟩, 2⟩, ⟨none, none, some ⟨[]⟩⟩)

theorem interventions_act_forward_twoHeads :
    (∃ out c,
      RunsThrough .serial noHash twoHeads zeroWeights none [(0, 0)] (1, 1) .postEmbed []
        (⟨List.replicate 4 ⟨7⟩, List.replicate 4 ⟨9⟩, 2⟩, Observers.none) out c ∧
      RunsThrough .serial noHash twoHeads zeroWeights (some onePlan) [(0, 0)] (1, 1) .postEmbed []
        (⟨List.replicate 4 ⟨7⟩, List.replicate 4 ⟨9⟩, 2⟩, Observers.none) out c) ∧
    ∃ before after, Site.Feeds (List.replicate 4 (⟨1⟩ : Cost)) after .postEmbed ∧
      onePlanStep.2.2 = (before ++ (Site.shown 1 (List.replicate 4 (⟨1⟩ : Cost)) .postEmbed ++ after)).foldl
        (Observers.see noHash) ⟨none, none, some ⟨[]⟩⟩ := by
  constructor
  · refine (@interventions_act_forward Cost _ .serial noHash twoHeads zeroWeights).2.2.1 none (some onePlan) [(0, 0)]
      (1, 1) [] .postEmbed trivial ?_ ?_ _
    · intro call hcall s _
      rw [List.mem_singleton.mp hcall]
      rfl
    · intro s _ hrank
      exact absurd hrank (Nat.not_lt_zero _)
  · have hok : onePlanStep.1.toBool = true := by decide +kernel
    rcases hend : onePlanStep with ⟨out, run', w'⟩
    rw [hend] at hok
    cases out with
    | error stop => cases hok
    | ok y =>
      obtain ⟨before, after, hw, hfeeds, -⟩ :=
        (@interventions_act_forward Cost _ .serial noHash twoHeads zeroWeights).2.2.2.2.2 (some onePlan) 1 1 .postEmbed
          (List.replicate 4 ⟨1⟩) trivial rfl rfl _ _ y run' w' hend
      exact ⟨before, after, hfeeds, hw⟩

end VitniTensor
