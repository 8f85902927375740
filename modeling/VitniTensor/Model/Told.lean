import VitniTensor.Model.Trace

/-!
# The events of a step

Part by part, what a step tells its observers, and that it ends alike whoever they are.
-/

namespace VitniTensor

open Outcome Exec

variable {F : Type} [F32 F] {p : Pass F} {run : RunState F}

abbrev Pass.Tells {α : Type} (p : Pass F) (m : Step F α) (run : RunState F)
    (Q : α → RunState F → List (Event F) → Prop) : Prop :=
  Exec.Tells (Observers.see p.blake3) m run Q

/-! ### Tensors that can be read -/

omit [F32 F] in
theorem fromF32_asF32 {data : List F} {shape : Shape} {t : Tensor F} (h : Tensor.fromF32 data shape = .ok t) :
    tensorAsF32 t = .ok data := by
  unfold tensorAsF32
  rw [(Tensor.fromF32_eq_ok h).1]

omit [F32 F] in
theorem vectorTensor_asF32 {data : List F} {n : Nat} {t : Tensor F} (h : vectorTensor data n = .ok t) :
    tensorAsF32 t = .ok data := by
  obtain ⟨shape, -, h⟩ := bind_eq_ok.mp h
  exact fromF32_asF32 h

theorem add_asF32 {x y z : Tensor F} (h : x.add y = .ok z) : ∃ zs, tensorAsF32 z = .ok zs := by
  obtain ⟨-, -, h⟩ := bind_eq_ok.mp h
  unfold Tensor.applyF32 at h
  rw [Tensor.isContiguous_eq, Tensor.isContiguous_eq, ok_bind, ok_bind] at h
  simp only [Bool.not_true, Bool.or_self, Bool.false_eq_true, if_false] at h
  split at h
  next => cases h
  next =>
    split at h
    next => exact ⟨_, fromF32_asF32 h⟩
    next => cases h

/-! ### Observation -/

theorem eval_recordOp (opName : String) (layer : UInt32) (key : String) (input output : List F)
    (run : RunState F) (w : Observers F) :
    (p.recordOp opName layer key (.ok input) output).eval (run, w) =
      (.ok (), (run, w.see p.blake3 (.op ⟨opName, layer, key, input, output⟩))) := by
  unfold Pass.recordOp
  rw [eval_bind_ok (eval_state _)]
  rcases w with ⟨rec | rec, act, lens⟩ <;> rfl

theorem eval_snapshot (layer : UInt32) (name : String) (xs : List F) (run : RunState F) (w : Observers F) :
    (p.snapshot layer name (.ok xs)).eval (run, w) =
      (.ok (), (run, w.see p.blake3 (.activation ⟨p.posU32, layer, name, xs⟩))) := by
  unfold Pass.snapshot
  rw [eval_bind_ok (eval_state _)]
  rcases w with ⟨rec, act | act, lens⟩ <;> rfl

theorem eval_capture (layer : UInt32) (name : String) (xs : List F) (run : RunState F) (w : Observers F) :
    (p.capture layer name (.ok xs)).eval (run, w) =
      (.ok (), (run, w.see p.blake3 (.residual ⟨p.posU32, layer, name, xs⟩))) := by
  unfold Pass.capture
  rw [eval_bind_ok (eval_state _)]
  rcases w with ⟨rec, act, lens | lens⟩ <;> rfl

theorem tells_recordOp {opName key : String} {layer : UInt32} {input : Res (List F)} {xs output : List F}
    {Q : Unit → RunState F → List (Event F) → Prop} (hinput : input = .ok xs)
    (h : Q () run [.op ⟨opName, layer, key, xs, output⟩]) :
    p.Tells (p.recordOp opName layer key input output) run Q := by
  subst hinput
  exact ⟨.ok (), run, [_], eval_recordOp opName layer key xs output run, fun _ _ => h⟩

theorem tells_snapshot {layer : UInt32} {name : String} {tensor : Res (List F)} {xs : List F}
    {Q : Unit → RunState F → List (Event F) → Prop} (htensor : tensor = .ok xs)
    (h : Q () run [.activation ⟨p.posU32, layer, name, xs⟩]) :
    p.Tells (p.snapshot layer name tensor) run Q := by
  subst htensor
  exact ⟨.ok (), run, [_], eval_snapshot layer name xs run, fun _ _ => h⟩

theorem tells_capture {layer : UInt32} {name : String} {residual : Res (List F)} {xs : List F}
    {Q : Unit → RunState F → List (Event F) → Prop} (hresidual : residual = .ok xs)
    (h : Q () run [.residual ⟨p.posU32, layer, name, xs⟩]) :
    p.Tells (p.capture layer name residual) run Q := by
  subst hresidual
  exact ⟨.ok (), run, [_], eval_capture layer name xs run, fun _ _ => h⟩

/-- A checkpoint shows the vector that the step goes on with, which is the plan's if it has one. -/
theorem tells_checkpoint {layer : UInt32} {name : String} {x : Tensor F} {xs : List F}
    {Q : Tensor F → RunState F → List (Event F) → Prop} (hx : tensorAsF32 x = .ok xs)
    (h : ∀ x' xs', tensorAsF32 x' = .ok xs' →
      (∀ r, p.replacement? layer name p.cfg.dim = some r → xs' = r) →
      Q x' run [.activation ⟨p.posU32, layer, name, xs'⟩, .residual ⟨p.posU32, layer, name, xs'⟩]) :
    p.Tells (p.checkpoint layer name x) run Q := by
  unfold Pass.checkpoint
  refine .step (.lift fun x' hx' => ?_)
  -- The intervention's values, where the plan has one here; the computed ones elsewhere.
  have hnext : ∃ xs', tensorAsF32 x' = .ok xs' ∧
      ∀ r, p.replacement? layer name p.cfg.dim = some r → xs' = r := by
    rw [Pass.intervene_eq] at hx'
    split at hx'
    next r hr =>
      refine ⟨r, vectorTensor_asF32 hx', fun r' hr' => ?_⟩
      rw [hr] at hr'
      exact Option.some.inj hr'
    next hr =>
      cases hx'
      refine ⟨xs, hx, fun r' hr' => ?_⟩
      rw [hr] at hr'
      cases hr'
  obtain ⟨xs', hxs', hplan⟩ := hnext
  -- Snapshot, then residual capture: both see the values behind the intervention.
  refine .step (tells_snapshot hxs' ?_)
  refine .step (tells_capture hxs' ?_)
  exact .pure (h x' xs' hxs' hplan)

/-! ### Recorded operations -/

theorem tells_rmsNorm {layer : UInt32} {key : String} {x : Tensor F} {xs ws : List F}
    {Q : List F → RunState F → List (Event F) → Prop} (hx : tensorAsF32 x = .ok xs)
    (h : ∀ y o, o = ⟨"rms_norm", layer, key, xs, y⟩ → (OpUse.rmsNorm layer key ws).Told p o → Q y run [.op o]) :
    p.Tells (p.rmsNorm layer key x ws) run Q := by
  unfold Pass.rmsNorm
  refine .step (.lift fun xb hxb => ?_)
  refine .step (.lift fun y hy => ?_)
  refine .step (tells_recordOp hx ?_)
  refine .pure (h y _ rfl ⟨rfl, rfl, rfl, x, hx, ?_⟩)
  exact bind_eq_ok.mpr ⟨xb, hxb, hy⟩

theorem tells_linear {layer : UInt32} {key : String} {x : List F} {w : QuantTensor} {inFeat outFeat : Nat}
    {Q : List F → RunState F → List (Event F) → Prop}
    (h : ∀ y o, o = ⟨"linear_q4_0", layer, key, x, y⟩ → (OpUse.linear layer key w).Told p o → Q y run [.op o]) :
    p.Tells (p.linear layer key x w inFeat outFeat) run Q := by
  unfold Pass.linear
  refine .step (.lift fun y hy => ?_)
  refine .step (tells_recordOp rfl ?_)
  exact .pure (h y _ rfl ⟨rfl, rfl, rfl, inFeat, outFeat, hy⟩)

/-! ### The caches -/

theorem tells_cacheRow {layer : Nat} {k v : List F} {Q : Unit → RunState F → List (Event F) → Prop}
    (h : ∀ run', run'.regime = run.regime → Q () run' []) : p.Tells (p.cacheRow layer k v) run Q := by
  unfold Pass.cacheRow
  refine .read (fun _ => rfl) ?_
  refine .step (.lift fun keys _ => ?_)
  refine .step (.update (fun run : RunState F => { run with keyCache := keys }) ?_)
  refine .step (.lift fun values _ => ?_)
  exact .update (fun run : RunState F => { run with valueCache := values }) (h _ rfl)

theorem tells_rope {layer : Nat} {q : List F} {Q : List F → RunState F → List (Event F) → Prop}
    (h : ∀ q' run', run'.regime = run.regime → Q q' run' []) : p.Tells (p.rope layer q) run Q := by
  unfold Pass.rope
  refine .read (fun _ => rfl) ?_
  refine .step (.lift fun qk _ => ?_)
  refine .step (.update (fun run : RunState F => { run with keyCache := qk.2 }) ?_)
  exact .pure (h _ _ rfl)

/-! ### Layers -/

open PerOpRecorder

theorem tells_project {layer : Nat} {blk : QuantLayer F} {x : Tensor F} {xs : List F}
    {Q : List F × List F × List F → RunState F → List (Event F) → Prop} (hx : tensorAsF32 x = .ok xs)
    (h : ∀ xb q k v qkv ops, ops = [⟨"rms_norm", UInt32.ofNat layer, paramsKey "rms_att" layer, xs, xb⟩,
        ⟨"linear_q4_0", UInt32.ofNat layer, paramsKey "wq" layer, xb, q⟩,
        ⟨"linear_q4_0", UInt32.ofNat layer, paramsKey "wk" layer, xb, k⟩,
        ⟨"linear_q4_0", UInt32.ofNat layer, paramsKey "wv" layer, xb, v⟩] →
      List.Forall₂ (OpUse.Told p) ((layerUses layer blk).take 4) ops → Q qkv run (ops.map .op)) :
    p.Tells (p.project layer blk x) run Q := by
  unfold Pass.project
  -- The calls in the source's order; each tells one operation.
  refine .step (tells_rmsNorm hx fun xb norm hnorm norm_told => ?_)
  refine .step (.lift fun outDim _ => ?_)
  refine .step (tells_linear fun q wq hwq wq_told => ?_)
  refine .step (tells_linear fun k wk hwk wk_told => ?_)
  refine .step (tells_linear fun v wv hwv wv_told => ?_)
  subst hnorm hwq hwk hwv
  refine .pure (h xb q k v _ _ rfl ?_)
  exact .cons norm_told (.cons wq_told (.cons wk_told (.cons wv_told .nil)))

theorem tells_attnOutput {layer : Nat} {blk : QuantLayer F} {x : Tensor F} {xbOut : List F}
    {Q : Tensor F → RunState F → List (Event F) → Prop}
    (h : ∀ xb2 x' postAttn wo a,
      wo = ⟨"linear_q4_0", UInt32.ofNat layer, paramsKey "wo" layer, xbOut, xb2⟩ →
      (OpUse.linear (UInt32.ofNat layer) (paramsKey "wo" layer) blk.wo).Told p wo →
      tensorAsF32 x' = .ok postAttn → a = ⟨p.posU32, UInt32.ofNat layer, "post_attn", postAttn⟩ →
      StepTrace.Honours p a p.cfg.dim →
      Q x' run [.residual ⟨p.posU32, UInt32.ofNat layer, "pre_wo", xbOut⟩, .op wo, .activation a, .residual a]) :
    p.Tells (p.attnOutput layer blk x xbOut) run Q := by
  unfold Pass.attnOutput
  -- The residual before `wo` is captured, then the projection and the sum are told.
  refine .step (tells_capture rfl ?_)
  refine .step (tells_linear fun xb2 wo hwo wo_told => ?_)
  refine .step (.lift fun xb2Tensor _ => ?_)
  refine .step (.lift fun sum hsum => ?_)
  obtain ⟨sums, hsums⟩ := add_asF32 hsum
  refine tells_checkpoint hsums fun x' postAttn hx' hplan => ?_
  exact h xb2 x' postAttn wo _ hwo wo_told hx' rfl hplan

theorem tells_feedForward {layer : Nat} {blk : QuantLayer F} {x : Tensor F} {xs : List F}
    {Q : Tensor F → RunState F → List (Event F) → Prop} (hx : tensorAsF32 x = .ok xs)
    (h : ∀ xb gate up inner down x' postFfn ops a,
      ops = [⟨"rms_norm", UInt32.ofNat layer, paramsKey "rms_ffn" layer, xs, xb⟩,
        ⟨"linear_q4_0", UInt32.ofNat layer, paramsKey "w1" layer, xb, gate⟩,
        ⟨"linear_q4_0", UInt32.ofNat layer, paramsKey "w3" layer, xb, up⟩,
        ⟨"linear_q4_0", UInt32.ofNat layer, paramsKey "w2" layer, inner, down⟩] →
      List.Forall₂ (OpUse.Told p) ((layerUses layer blk).drop 5) ops →
      tensorAsF32 x' = .ok postFfn → a = ⟨p.posU32, UInt32.ofNat layer, "post_ffn", postFfn⟩ →
      StepTrace.Honours p a p.cfg.dim → Q x' run (ops.map .op ++ [.activation a, .residual a])) :
    p.Tells (p.feedForward layer blk x) run Q := by
  unfold Pass.feedForward
  -- Norm, gate, up, down; the activation between them is not told.
  refine .step (tells_rmsNorm hx fun xb norm hnorm norm_told => ?_)
  refine .step (tells_linear fun gate w1 hw1 w1_told => ?_)
  refine .step (tells_linear fun up w3 hw3 w3_told => ?_)
  refine .step (.lift fun inner _ => ?_)
  refine .step (tells_linear fun down w2 hw2 w2_told => ?_)
  refine .step (.lift fun downTensor _ => ?_)
  refine .step (.lift fun sum hsum => ?_)
  obtain ⟨sums, hsums⟩ := add_asF32 hsum
  subst hnorm hw1 hw3 hw2
  refine tells_checkpoint hsums fun x' postFfn hx' hplan => ?_
  refine h xb gate up inner down x' postFfn _ _ rfl ?_ hx' rfl hplan
  exact .cons norm_told (.cons w1_told (.cons w3_told (.cons w2_told .nil)))

/-- One layer. -/
theorem tells_layerStep {layer : Nat} {x : Tensor F} {xs : List F}
    {Q : Tensor F → RunState F → List (Event F) → Prop} (hx : tensorAsF32 x = .ok xs)
    (h : ∀ blk (t : LayerTrace F) x' run', p.weights.layers[layer]? = some blk → t.x = xs →
      tensorAsF32 x' = .ok t.postFfn → run'.regime = run.regime →
      List.Forall₂ (OpUse.Told p) (layerUses layer blk) (t.ops layer) →
      (∀ a ∈ t.activations p.posU32 layer, StepTrace.Honours p a p.cfg.dim) →
      Q x' run' (t.events p.posU32 layer)) :
    p.Tells (p.layerStep layer x) run Q := by
  unfold Pass.layerStep
  -- The parts of the layer in order, with what each of them tells.
  refine .step (.lift fun blk hblk => ?_)
  refine .step (tells_project hx fun xb q k v qkv ops hops ops_told => ?_)
  refine .step (tells_cacheRow fun run₁ hrun₁ => ?_)
  refine .step (tells_rope fun q' run₂ hrun₂ => ?_)
  -- The attention reads the cache and tells nothing.
  refine .read (fun _ => rfl) ?_
  refine .step (.lift fun xbOut _ => ?_)
  refine .step (tells_attnOutput fun xb2 mid postAttn wo a hwo wo_told hmid ha hattn => ?_)
  refine tells_feedForward hmid fun xbFfn gate up inner down x' postFfn ffn b hffn ffn_told hx' hb hplan => ?_
  subst hops hwo ha hffn hb
  refine h blk ⟨xs, xb, q, k, v, xbOut, xb2, postAttn, xbFfn, gate, up, inner, down, postFfn⟩ x' run₂
    (index_eq_ok.mp hblk) rfl hx' (hrun₂.trans hrun₁) ?_ ?_
  · exact List.rel_append ops_told (.cons wo_told ffn_told)
  -- The two checkpoints of a layer: behind the attention, behind the feed-forward.
  · intro a ha
    rcases List.mem_cons.mp ha with rfl | ha
    · exact hattn
    · rw [List.mem_singleton.mp ha]
      exact hplan

/-- The first `i` layers, from the vector `first` to the vector `xs`. -/
structure LayersTold (p : Pass F) (first : List F) (i : Nat) (ts : List (LayerTrace F)) (xs : List F) : Prop where
  length : ts.length = i
  chain : ts.map (·.x) ++ [xs] = first :: ts.map (·.postFfn)
  told : List.Forall₂ (OpUse.Told p)
    ((p.weights.layers.take i).zipIdx.flatMap fun blk => layerUses blk.2 blk.1)
    (ts.zipIdx.flatMap fun t => t.1.ops t.2)
  honoured : ∀ a ∈ ts.zipIdx.flatMap (fun t => t.1.activations p.posU32 t.2),
    StepTrace.Honours p a p.cfg.dim

omit [F32 F] in
theorem layerCheckpoint_ne {ts : List (LayerTrace F)} {pos : UInt32} {a : LensEntry F}
    (ha : a ∈ ts.zipIdx.flatMap fun t => t.1.activations pos t.2) : a.checkpoint ≠ "post_lm_head" := by
  obtain ⟨t, -, ha⟩ := List.mem_flatMap.mp ha
  rcases List.mem_cons.mp ha with rfl | ha
  · exact (by decide : "post_attn" ≠ "post_lm_head")
  · rw [List.mem_singleton.mp ha]
    exact (by decide : "post_ffn" ≠ "post_lm_head")

theorem LayersTold.start (p : Pass F) (xs : List F) : LayersTold p xs 0 [] xs :=
  ⟨rfl, rfl, .nil, fun _ h => nomatch h⟩

private theorem flatMap_zipIdx_concat {α β : Type} (f : α × Nat → List β) (xs : List α) (x : α) {n : Nat}
    (hn : xs.length = n) : (xs ++ [x]).zipIdx.flatMap f = xs.zipIdx.flatMap f ++ f (x, n) := by
  rw [List.zipIdx_append, List.flatMap_append, List.zipIdx_singleton, List.flatMap_singleton, Nat.zero_add, hn]

theorem LayersTold.push {first xs : List F} {i : Nat} {ts : List (LayerTrace F)} {t : LayerTrace F}
    {blk : QuantLayer F} (h : LayersTold p first i ts xs) (hblk : p.weights.layers[i]? = some blk) (hx : t.x = xs)
    (told : List.Forall₂ (OpUse.Told p) (layerUses i blk) (t.ops i))
    (honoured : ∀ a ∈ t.activations p.posU32 i, StepTrace.Honours p a p.cfg.dim) :
    LayersTold p first (i + 1) (ts ++ [t]) t.postFfn := by
  obtain ⟨hi, hget⟩ := List.getElem?_eq_some_iff.mp hblk
  constructor
  · rw [List.length_append, h.length, List.length_singleton]
  · rw [List.map_append, List.map_singleton, hx, h.chain, List.map_append, List.map_singleton, List.cons_append]
  -- The list of uses grows by the block of layer `i`, the told operations by its trace.
  · rw [List.take_succ_eq_append_getElem hi, hget,
      flatMap_zipIdx_concat _ _ _ (List.length_take_of_le (Nat.le_of_lt hi)), flatMap_zipIdx_concat _ _ _ h.length]
    exact List.rel_append h.told told
  · intro a ha
    rw [flatMap_zipIdx_concat _ _ _ h.length] at ha
    rcases List.mem_append.mp ha with ha | ha
    · exact h.honoured a ha
    · exact honoured a ha

theorem tells_layers {x : Tensor F} {xs : List F} {Q : Tensor F → RunState F → List (Event F) → Prop}
    (hx : tensorAsF32 x = .ok xs)
    (h : ∀ ts x' xs' run', tensorAsF32 x' = .ok xs' → run'.regime = run.regime →
      LayersTold p xs p.cfg.nLayers ts xs' → Q x' run' (ts.zipIdx.flatMap fun t => t.1.events p.posU32 t.2)) :
    p.Tells (forRange p.cfg.nLayers p.layerStep x) run Q := by
  -- Loop invariant: the first `i` layers are told, chained from the embedded vector on.
  have hloop := @Tells.loop _ _ _ _ _ (Observers.see p.blake3) 0 p.cfg.nLayers p.layerStep
    (fun i x' run' told => ∃ ts xs', tensorAsF32 x' = .ok xs' ∧ run'.regime = run.regime ∧
      LayersTold p xs i ts xs' ∧ told = ts.zipIdx.flatMap fun t => t.1.events p.posU32 t.2) ?_ [] x run
    ⟨[], xs, hx, rfl, .start p xs, rfl⟩
  · refine hloop.mono fun x' run' told ⟨ts, xs', hx', hrun, hts, htold⟩ => ?_
    rw [Nat.zero_add] at hts
    rw [List.nil_append] at htold
    subst htold
    exact h ts x' xs' run' hx' hrun hts
  -- One more layer appends its trace.
  · rintro i x₁ run₁ told - - ⟨ts, xs₁, hx₁, hrun₁, hts, rfl⟩
    refine tells_layerStep hx₁ fun blk t x' run' hblk ht hx' hrun' ops_told honoured => ?_
    refine ⟨ts ++ [t], t.postFfn, hx', hrun'.trans hrun₁, hts.push hblk ht ops_told honoured, ?_⟩
    rw [flatMap_zipIdx_concat _ _ _ hts.length]

/-! ### A step -/

theorem tells_embed {token : UInt32} {Q : Tensor F → RunState F → List (Event F) → Prop}
    (h : ∀ x xs a, tensorAsF32 x = .ok xs → a = ⟨p.posU32, noLayer, "post_embed", xs⟩ →
      StepTrace.Honours p a p.cfg.dim → Q x run [.activation a, .residual a]) :
    p.Tells (p.embed token) run Q := by
  unfold Pass.embed
  refine .step (.lift fun row _ => ?_)
  refine .step (.lift fun x hx => ?_)
  exact tells_checkpoint (vectorTensor_asF32 hx) fun x' xs' hx' hplan => h x' xs' _ hx' rfl hplan

theorem told_lmHead (p : Pass F) {o : Operation F}
    (h : (OpUse.linear noLayer p.lmHead.2 p.lmHead.1).Told p o) :
    ∀ use, (headUses p.weights)[1]? = some use → use.Told p o := by
  intro use huse
  unfold headUses at huse
  unfold Pass.lmHead at h
  -- A shared classifier is told under the embedding's name.
  cases hcls : p.weights.wcls with
  | none =>
    rw [hcls] at h huse
    cases huse
    exact h
  | some wcls =>
    rw [hcls] at h huse
    cases huse
    exact h

/-- The vectors behind the last layer. -/
structure HeadTold (p : Pass F) (xs xFinal preLmHead logits postLmHead : List F) : Prop where
  told : List.Forall₂ (OpUse.Told p) (headUses p.weights) [⟨"rms_norm", noLayer, "rms_final", xs, xFinal⟩,
    ⟨"linear_q4_0", noLayer, p.lmHead.2, preLmHead, logits⟩]
  honoursPre : StepTrace.Honours p ⟨p.posU32, noLayer, "pre_lm_head", preLmHead⟩ p.cfg.dim
  honoursPost : StepTrace.Honours p ⟨p.posU32, noLayer, "post_lm_head", postLmHead⟩ p.cfg.vocabSize
  kept : p.replacement? noLayer "pre_lm_head" p.cfg.dim = none → preLmHead = xFinal

omit [F32 F] in
/-- A vector and what the plan makes of it. -/
theorem intervene_vector {layer : UInt32} {name : String} {n : Nat} {x x' : List F}
    (h : p.intervene layer name n .ok x = .ok x') :
    StepTrace.Honours p ⟨p.posU32, layer, name, x'⟩ n ∧ (p.replacement? layer name n = none → x' = x) := by
  rw [Pass.intervene_eq] at h
  split at h
  next r hr =>
    cases h
    refine ⟨fun r' hr' => Option.some.inj (hr.symm.trans hr'), fun hnone => ?_⟩
    rw [hr] at hnone
    cases hnone
  next hr =>
    cases h
    exact ⟨fun r' hr' => (nomatch hr.symm.trans hr'), fun _ => rfl⟩

theorem tells_logits {x : Tensor F} {xs : List F} {Q : Tensor F → RunState F → List (Event F) → Prop}
    (hx : tensorAsF32 x = .ok xs)
    (h : ∀ xFinal preLmHead logits postLmHead y, HeadTold p xs xFinal preLmHead logits postLmHead →
      tensorAsF32 y = .ok postLmHead →
      Q y run [.op ⟨"rms_norm", noLayer, "rms_final", xs, xFinal⟩,
        .activation ⟨p.posU32, noLayer, "pre_lm_head", preLmHead⟩,
        .residual ⟨p.posU32, noLayer, "pre_lm_head", preLmHead⟩,
        .op ⟨"linear_q4_0", noLayer, p.lmHead.2, preLmHead, logits⟩,
        .activation ⟨p.posU32, noLayer, "post_lm_head", postLmHead⟩]) :
    p.Tells (p.logits x) run Q := by
  unfold Pass.logits
  -- Norm, intervention, classifier, intervention, the last without a residual capture.
  refine .step (tells_rmsNorm hx fun xFinal norm hnorm norm_told => ?_)
  refine .step (.lift fun preLmHead hpre => ?_)
  refine .step (tells_snapshot rfl ?_)
  refine .step (tells_capture rfl ?_)
  refine .step (tells_linear fun logits head hhead head_told => ?_)
  refine .step (.lift fun postLmHead hpost => ?_)
  refine .step (tells_snapshot rfl ?_)
  refine .lift fun y hy => ?_
  subst hnorm hhead
  obtain ⟨hpre, hkept⟩ := intervene_vector hpre
  refine h xFinal preLmHead logits postLmHead y ⟨?_, hpre, (intervene_vector hpost).1, hkept⟩ (vectorTensor_asF32 hy)
  exact .cons norm_told (.cons (told_lmHead p head_told _ rfl) .nil)

/-- A whole step, behind the sizes that it derives. -/
theorem tells_forward {token : UInt32} {Q : Tensor F → RunState F → List (Event F) → Prop}
    (h : ∀ (t : StepTrace F) y run', t.Computed p → tensorAsF32 y = .ok t.postLmHead →
      run'.regime = run.regime → Q y run' (t.events p)) :
    p.Tells (p.forward token) run Q := by
  unfold Pass.forward
  -- Embedding, layers, head.
  refine .step (tells_embed fun x xs a hx ha hembed => ?_)
  refine .step (tells_layers hx fun ts x' xs' run' hx' hrun' hts => ?_)
  refine tells_logits hx' fun xFinal preLmHead logits postLmHead y hhead hy => ?_
  subst ha
  have hresult := h ⟨xs, ts, xs', xFinal, preLmHead, logits, postLmHead⟩ y run' ?_ hy hrun'
  · unfold StepTrace.events at hresult
    rwa [List.append_assoc] at hresult
  · refine ⟨hts.length, hts.chain, List.rel_append hts.told hhead.told, ?_, hhead.kept⟩
    intro a ha
    simp only [StepTrace.activations, List.mem_append, List.mem_cons, List.not_mem_nil, or_false] at ha
    -- The four kinds of checkpoints a step has.
    rcases ha with (rfl | ha) | rfl | rfl
    · exact hembed
    · rw [if_neg (layerCheckpoint_ne ha)]
      exact hts.honoured a ha
    · exact hhead.honoursPre
    · exact hhead.honoursPost

end VitniTensor
