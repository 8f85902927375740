import VitniTensor.Model.Checkpoints

/-!
# Interventions

What a plan changes at a checkpoint is seen from there on, and nowhere before: two runs under plans
that agree on the earlier checkpoints get to it in the same state, caches and observers included.
-/

namespace VitniTensor

open Outcome Exec

variable {F : Type} [F32 F]

/-! ### Lookups -/

/-- An entry for this checkpoint. -/
def InterventionEntry.isFor (tokenIndex layer : UInt32) (checkpoint : String) (e : InterventionEntry F) : Bool :=
  e.tokenIndex == tokenIndex && e.layer == layer && e.checkpoint == checkpoint

omit [F32 F] in
/-- The last of the entries for a checkpoint is looked up. -/
theorem InterventionPlan.lookup_eq (plan : InterventionPlan F) (tokenIndex layer : UInt32) (checkpoint : String) :
    plan.lookup tokenIndex layer checkpoint =
      (plan.entries.filter (·.isFor tokenIndex layer checkpoint)).getLast?.map (·.replacement) := by
  rw [List.getLast?_eq_head?_reverse, ← List.filter_reverse, List.head?_filter]
  rfl

omit [F32 F] in
theorem InterventionPlan.lookup_add (plan : InterventionPlan F) (tokenIndex layer : UInt32) (checkpoint : String)
    (replacement : List F) (tokenIndex' layer' : UInt32) (checkpoint' : String) :
    (plan.add tokenIndex layer checkpoint replacement).lookup tokenIndex' layer' checkpoint' =
      if tokenIndex = tokenIndex' ∧ layer = layer' ∧ checkpoint = checkpoint' then some replacement
      else plan.lookup tokenIndex' layer' checkpoint' := by
  unfold lookup add
  rw [List.reverse_append, List.reverse_singleton, List.singleton_append, List.find?_cons]
  by_cases same : tokenIndex = tokenIndex' ∧ layer = layer' ∧ checkpoint = checkpoint'
  · obtain ⟨rfl, rfl, rfl⟩ := same
    simp
  · rw [if_neg same]
    have hfalse : (tokenIndex == tokenIndex' && layer == layer' && checkpoint == checkpoint') = false := by
      simpa only [Bool.and_eq_false_iff, beq_eq_false_iff_ne, ne_eq, and_assoc, not_and_or, or_assoc] using same
    rw [hfalse]

/-- What a plan, if there is one, gives for a checkpoint of the step at `pos`. -/
def lookupAt (plan : Option (InterventionPlan F)) (pos : Nat) (s : Site) : Option (List F) :=
  plan.bind (·.lookup (UInt32.ofNat pos) s.layer s.checkpoint)

/-- What it puts in the place of the vector there: an entry of the right length. -/
def replacementAt (cfg : Config) (plan : Option (InterventionPlan F)) (pos : Nat) (s : Site) : Option (List F) :=
  (lookupAt plan pos s).filter fun r => r.length = s.width cfg

/-! ### A step under two plans -/

namespace Pass

variable (p : Pass F)

/-- The same pass under another plan. -/
def under (plan : Option (InterventionPlan F)) : Pass F :=
  { p with plan := plan }

variable {p} {plan plan' : Option (InterventionPlan F)}

omit [F32 F] in
theorem intervene_congr {α : Type} {layer : UInt32} {name : String} {n : Nat} (make : List F → Res α) (x : α)
    (h : (p.under plan).replacement? layer name n = (p.under plan').replacement? layer name n) :
    (p.under plan).intervene layer name n make x = (p.under plan').intervene layer name n make x := by
  rw [intervene_eq, intervene_eq, h]

theorem checkpoint_congr {layer : UInt32} {name : String} (x : Tensor F)
    (h : (p.under plan).replacement? layer name p.cfg.dim = (p.under plan').replacement? layer name p.cfg.dim) :
    (p.under plan).checkpoint layer name x = (p.under plan').checkpoint layer name x :=
  congrArg (fun r => Exec.lift r >>= fun x => p.snapshot layer name (tensorAsF32 x) >>= fun _ =>
    p.capture layer name (tensorAsF32 x) >>= fun _ => pure x) (intervene_congr _ x h)

/-- A checkpoint depends on the plan through the replacement alone. -/
theorem settle_congr {s : Site} (h : replacementAt p.cfg plan p.pos s = replacementAt p.cfg plan' p.pos s) :
    (p.under plan).settle s = (p.under plan').settle s := by
  funext v
  cases s with
  | postEmbed => exact checkpoint_congr v h
  | postAttn l => exact checkpoint_congr v h
  | postFfn l => exact checkpoint_congr v h
  | preLmHead =>
    exact congrArg (fun r => Exec.lift r >>= fun v => p.snapshot noLayer "pre_lm_head" (.ok v) >>= fun _ =>
      p.capture noLayer "pre_lm_head" (.ok v) >>= fun _ => pure v) (intervene_congr _ v h)
  | postLmHead =>
    exact congrArg (fun r => Exec.lift r >>= fun v => p.snapshot noLayer "post_lm_head" (.ok v) >>= fun _ => pure v)
      (intervene_congr _ v h)

/-- The plans make the same replacements at the checkpoints before `s`. -/
def AgreeBefore (cfg : Config) (plan plan' : Option (InterventionPlan F)) (pos : Nat) (s : Site) : Prop :=
  ∀ s' : Site, s'.Valid cfg.nLayers → s'.rank cfg.nLayers < s.rank cfg.nLayers →
    replacementAt cfg plan pos s' = replacementAt cfg plan' pos s'

theorem layers_congr {n : Nat}
    (h : ∀ l < n, replacementAt p.cfg plan p.pos (.postAttn l) = replacementAt p.cfg plan' p.pos (.postAttn l) ∧
      replacementAt p.cfg plan p.pos (.postFfn l) = replacementAt p.cfg plan' p.pos (.postFfn l)) :
    forRange n (p.under plan).layerStep = forRange n (p.under plan').layerStep := by
  refine forFrom_ext fun l _ hl => ?_
  obtain ⟨hattn, hffn⟩ := h l (by omega)
  funext x
  rw [layerStep_eq, layerStep_eq, settle_congr hattn, settle_congr hffn]
  rfl

theorem throughLayers_congr {n : Nat}
    (hembed : replacementAt p.cfg plan p.pos .postEmbed = replacementAt p.cfg plan' p.pos .postEmbed)
    (h : ∀ l < n, replacementAt p.cfg plan p.pos (.postAttn l) = replacementAt p.cfg plan' p.pos (.postAttn l) ∧
      replacementAt p.cfg plan p.pos (.postFfn l) = replacementAt p.cfg plan' p.pos (.postFfn l)) (token : UInt32) :
    (p.under plan).throughLayers token n = (p.under plan').throughLayers token n := by
  unfold throughLayers
  rw [embed_eq, embed_eq, settle_congr hembed, layers_congr h]
  rfl

/-- Until a checkpoint is reached, the plan counts at the earlier ones alone. -/
theorem reach_congr {s : Site} (hs : s.Valid p.cfg.nLayers) (h : AgreeBefore p.cfg plan plan' p.pos s)
    (token : UInt32) : (p.under plan).reach token s = (p.under plan').reach token s := by
  have hthrough : ∀ n ≤ p.cfg.nLayers, 2 * n < s.rank p.cfg.nLayers →
      (p.under plan).throughLayers token n = (p.under plan').throughLayers token n := by
    intro n hn hrank
    refine throughLayers_congr (h .postEmbed trivial (Nat.zero_lt_of_lt hrank)) (fun l hl => ⟨?_, ?_⟩) token
    · exact h (.postAttn l) (Nat.lt_of_lt_of_le hl hn) (Nat.lt_of_le_of_lt (by omega : 2 * l + 1 ≤ 2 * n) hrank)
    · exact h (.postFfn l) (Nat.lt_of_lt_of_le hl hn) (Nat.lt_of_le_of_lt (by omega : 2 * l + 2 ≤ 2 * n) hrank)
  cases s with
  | postEmbed => rfl
  | postAttn l =>
    rw [reach_postAttn, reach_postAttn, hthrough l (Nat.le_of_lt hs) (by simp only [Site.rank]; omega)]
    rfl
  | postFfn l =>
    have hattn := h (.postAttn l) hs (by simp only [Site.rank]; omega)
    rw [reach_postFfn, reach_postFfn, hthrough l (Nat.le_of_lt hs) (by simp only [Site.rank]; omega),
      settle_congr hattn]
    rfl
  | preLmHead =>
    have hlayers := hthrough p.cfg.nLayers (Nat.le_refl _) (by simp only [Site.rank]; omega)
    exact congrArg (fun m => m >>= p.toHead) hlayers
  | postLmHead =>
    have hpre := h .preLmHead trivial (by simp only [Site.rank]; omega)
    have hlayers := hthrough p.cfg.nLayers (Nat.le_refl _) (by simp only [Site.rank]; omega)
    rw [reach_postLmHead, reach_postLmHead, settle_congr hpre]
    exact congrArg (fun m => m >>= fun x => p.toHead x >>= fun v => (p.under plan').settle .preLmHead v >>= p.toLogits)
      hlayers

/-- Plans that replace alike make the same step. -/
theorem forward_congr (h : ∀ s : Site, s.Valid p.cfg.nLayers →
      replacementAt p.cfg plan p.pos s = replacementAt p.cfg plan' p.pos s) (token : UInt32) :
    (p.under plan).forward token = (p.under plan').forward token := by
  have hreach := @reach_congr F _ p plan plan' .postLmHead trivial (fun s hs _ => h s hs) token
  rw [forward_eq _ _ (s := .postLmHead) trivial, forward_eq _ _ (s := .postLmHead) trivial, hreach,
    settle_congr (h .postLmHead trivial)]
  rfl

end Pass

/-! ### Runs -/

section Run

variable (build : Build) (blake3 : Blake3) (cfg : Config) (weights : QuantizedWeights F)

omit [F32 F] in
variable {build blake3 cfg weights} in
/-- The plan is no part of the sizes. -/
theorem passOf_under (plan : Option (InterventionPlan F)) (pos : Nat) (regime : UInt8) :
    passOf build blake3 cfg weights plan pos regime =
      (passOf build blake3 cfg weights none pos regime).map (·.under plan) := by
  unfold passOf
  cases cfg.kvDim with
  | error stop => rfl
  | ok kvDim =>
    cases cfg.kvMul with
    | error stop => rfl
    | ok kvMul =>
      cases cfg.headSize with
      | error stop => rfl
      | ok headSize => rfl

/-- A step, until the plan is consulted at `s`. -/
def reachStep (plan : Option (InterventionPlan F)) (token : UInt32) (pos : Nat) (s : Site) :
    Step F (Pass F × s.Held F) := do
  let (run, _) ← state
  let p ← lift (passOf build blake3 cfg weights none pos run.regime)
  let v ← (p.under plan).reach token s
  pure (p, v)

/-- A run, until the plan is consulted at `s` in the step for `call`: the logits so far, and what
that step holds. -/
def runUntil (plan : Option (InterventionPlan F)) (before : List (UInt32 × Nat)) (call : UInt32 × Nat) (s : Site) :
    Step F (List (Tensor F) × Pass F × s.Held F) := do
  let ys ← forwardAll (stepWithRecorders build blake3 cfg weights plan) before
  let at_ ← reachStep build blake3 cfg weights plan call.1 call.2 s
  pure (ys, at_)

/-- The rest of the run, from the checkpoint on. -/
def runFrom (plan : Option (InterventionPlan F)) (s : Site) (after : List (UInt32 × Nat))
    (at_ : List (Tensor F) × Pass F × s.Held F) : Step F (List (Tensor F)) := do
  let v ← (at_.2.1.under plan).settle s at_.2.2
  let y ← (at_.2.1.under plan).next s v
  let ys ← forwardAll (stepWithRecorders build blake3 cfg weights plan) after
  pure (at_.1 ++ y :: ys)

variable {build blake3 cfg weights} {plan plan' : Option (InterventionPlan F)}

theorem stepWithRecorders_eq {s : Site} (hs : s.Valid cfg.nLayers) (token : UInt32) (pos : Nat) :
    stepWithRecorders build blake3 cfg weights plan token pos =
      reachStep build blake3 cfg weights plan token pos s >>= fun at_ =>
        (at_.1.under plan).settle s at_.2 >>= (at_.1.under plan).next s := by
  unfold stepWithRecorders reachStep
  simp only [bind_assoc, pure_bind, passOf_under plan]
  refine congrArg (state >>= ·) (funext fun t => ?_)
  cases hp : passOf build blake3 cfg weights none pos t.1.regime with
  | error stop => rfl
  | ok p =>
    have hcfg := (passOf_fields hp).2.1
    exact Pass.forward_eq (p.under plan) token (by rwa [← hcfg] at hs)

omit [F32 F] in
theorem forwardAll_append {φ : Type} (forward : UInt32 → Nat → Exec φ Error (Tensor F))
    (before after : List (UInt32 × Nat)) :
    forwardAll forward (before ++ after) = forwardAll forward before >>= fun ys =>
      forwardAll forward after >>= fun ys' => pure (ys ++ ys') := by
  induction before with
  | nil => simp only [List.nil_append, forwardAll, pure_bind, bind_pure]
  | cons call before ih => simp only [List.cons_append, forwardAll, ih, bind_assoc, pure_bind]

/-- A run goes through each of its checkpoints. -/
theorem run_cut {s : Site} (hs : s.Valid cfg.nLayers) (before after : List (UInt32 × Nat)) (call : UInt32 × Nat) :
    forwardAll (stepWithRecorders build blake3 cfg weights plan) (before ++ call :: after) =
      runUntil build blake3 cfg weights plan before call s >>= runFrom build blake3 cfg weights plan s after := by
  rw [forwardAll_append]
  unfold runUntil runFrom
  simp only [forwardAll, stepWithRecorders_eq hs, bind_assoc, pure_bind]

theorem stepWithRecorders_congr {token : UInt32} {pos : Nat} (h : ∀ s : Site, s.Valid cfg.nLayers →
      replacementAt cfg plan pos s = replacementAt cfg plan' pos s) :
    stepWithRecorders build blake3 cfg weights plan token pos =
      stepWithRecorders build blake3 cfg weights plan' token pos := by
  unfold stepWithRecorders
  refine congrArg (state >>= ·) (funext fun t => ?_)
  dsimp only
  rw [passOf_under plan, passOf_under plan']
  cases hp : passOf build blake3 cfg weights none pos t.1.regime with
  | error stop => rfl
  | ok p =>
    obtain ⟨-, rfl, -, rfl⟩ := passOf_fields hp
    exact Pass.forward_congr h token

/-- Plans that replace alike make the same run. -/
theorem forwardAll_congr {calls : List (UInt32 × Nat)} (h : ∀ call ∈ calls, ∀ s : Site, s.Valid cfg.nLayers →
      replacementAt cfg plan call.2 s = replacementAt cfg plan' call.2 s) :
    forwardAll (stepWithRecorders build blake3 cfg weights plan) calls =
      forwardAll (stepWithRecorders build blake3 cfg weights plan') calls := by
  induction calls with
  | nil => rfl
  | cons call calls ih =>
    unfold forwardAll
    rw [stepWithRecorders_congr (h call List.mem_cons_self),
      ih fun call' hmem => h call' (List.mem_cons_of_mem call hmem)]

theorem reachStep_congr {token : UInt32} {pos : Nat} {s : Site} (hs : s.Valid cfg.nLayers)
    (h : Pass.AgreeBefore cfg plan plan' pos s) :
    reachStep build blake3 cfg weights plan token pos s = reachStep build blake3 cfg weights plan' token pos s := by
  unfold reachStep
  refine congrArg (state >>= ·) (funext fun t => ?_)
  refine lift_bind_congr fun p hp => ?_
  obtain ⟨-, rfl, -, rfl⟩ := passOf_fields hp
  exact congrArg (· >>= fun v => pure (p, v)) (Pass.reach_congr hs h token)

/-- Under plans that replace alike before a checkpoint, the runs up to it are the same. -/
theorem runUntil_congr {before : List (UInt32 × Nat)} {call : UInt32 × Nat} {s : Site} (hs : s.Valid cfg.nLayers)
    (hbefore : ∀ call' ∈ before, ∀ s' : Site, s'.Valid cfg.nLayers →
      replacementAt cfg plan call'.2 s' = replacementAt cfg plan' call'.2 s')
    (hcall : Pass.AgreeBefore cfg plan plan' call.2 s) :
    runUntil build blake3 cfg weights plan before call s = runUntil build blake3 cfg weights plan' before call s := by
  unfold runUntil
  rw [forwardAll_congr hbefore, reachStep_congr hs hcall]

end Run

end VitniTensor
