import VitniTensor.Model.Causal

/-!
# Unobserved steps

Without observers and without a plan, the parts of a step outside the cache are the pure
computations of the causal specification.
-/

namespace VitniTensor

open Outcome Exec

variable {F α β : Type}

/-- With no observers, `m` is the pure computation `x`. -/
structure Quiet (m : Step F α) (x : Res α) : Prop where
  eval : ∀ run, m.eval (run, Observers.none) = (x, (run, Observers.none))

namespace Quiet

theorem pure (a : α) : Quiet (Pure.pure a : Step F α) (.ok a) :=
  ⟨fun _ => rfl⟩

theorem lift (x : Res α) : Quiet (Exec.lift x : Step F α) x :=
  ⟨fun _ => rfl⟩

theorem bind {m : Step F α} {x : Res α} {f : α → Step F β} {y : α → Res β} (first : Quiet m x)
    (next : ∀ a, Quiet (f a) (y a)) : Quiet (m >>= f) (x >>= y) := by
  refine ⟨fun run => ?_⟩
  rw [eval_bind, first.eval run]
  cases x with
  | error stop => rfl
  | ok a => exact (next a).eval run

/-- A last part that only observes. -/
theorem observe {m : Step F α} {x : Res α} {f : α → Step F α} (first : Quiet m x)
    (next : ∀ a, Quiet (f a) (.ok a)) : Quiet (m >>= f) x := by
  refine ⟨fun run => ?_⟩
  rw [eval_bind, first.eval run]
  cases x with
  | error stop => rfl
  | ok a => exact (next a).eval run

/-- A part whose value is known. -/
theorem known {m : Step F α} {a : α} {f : α → Step F β} {y : Res β} (first : Quiet m (.ok a))
    (next : Quiet (f a) y) : Quiet (m >>= f) y := by
  refine ⟨fun run => ?_⟩
  rw [eval_bind, first.eval run]
  exact next.eval run

end Quiet

variable [F32 F] {p : Pass F}

/-! ### Observation does nothing -/

theorem quiet_recordOp (opName : String) (layer : UInt32) (key : String) (input : Res (List F))
    (output : List F) : Quiet (p.recordOp opName layer key input output) (.ok ()) :=
  ⟨fun _ => rfl⟩

theorem quiet_snapshot (layer : UInt32) (name : String) (tensor : Res (List F)) :
    Quiet (p.snapshot layer name tensor) (.ok ()) :=
  ⟨fun _ => rfl⟩

omit [F32 F] in
theorem quiet_capture (layer : UInt32) (name : String) (residual : Res (List F)) :
    Quiet (p.capture layer name residual) (.ok ()) :=
  ⟨fun _ => rfl⟩

omit [F32 F] in
theorem intervene_none (hplan : p.plan = none) (layer : UInt32) (name : String) (n : Nat)
    (make : List F → Res α) (x : α) : p.intervene layer name n make x = .ok x := by
  unfold Pass.intervene
  rw [hplan]

theorem quiet_checkpoint (hplan : p.plan = none) (layer : UInt32) (name : String) (x : Tensor F) :
    Quiet (p.checkpoint layer name x) (.ok x) := by
  unfold Pass.checkpoint
  rw [intervene_none hplan]
  refine .known (.lift _) ?_
  refine .known (quiet_snapshot ..) ?_
  exact .known (quiet_capture ..) (.pure x)

theorem quiet_rmsNorm (layer : UInt32) (key : String) (x : Tensor F) (ws : List F) :
    Quiet (p.rmsNorm layer key x ws) (Causal.normalized p x ws) := by
  unfold Pass.rmsNorm Causal.normalized
  refine .bind (.lift _) fun xb => ?_
  refine .observe (.lift _) fun xbVec => ?_
  exact .known (quiet_recordOp ..) (.pure xbVec)

theorem quiet_linear (layer : UInt32) (key : String) (x : List F) (w : QuantTensor)
    (inFeat outFeat : Nat) :
    Quiet (p.linear layer key x w inFeat outFeat) (Causal.linear p x w inFeat outFeat) := by
  unfold Pass.linear Causal.linear
  refine .observe (.lift _) fun y => ?_
  exact .known (quiet_recordOp ..) (.pure y)

/-! ### The parts of a step -/

/-- Query, key and value before the rotation. -/
def projected (p : Pass F) (blk : QuantLayer F) (x : Tensor F) : Res (List F × List F × List F) := do
  let xb ← Causal.normalized p x blk.rmsAttWeight
  let outDim ← attnQOutDim p.cfg
  let q ← Causal.linear p xb blk.wq p.cfg.dim outDim
  let k ← Causal.linear p xb blk.wk p.cfg.dim p.kvDim
  let v ← Causal.linear p xb blk.wv p.cfg.dim p.kvDim
  pure (addBias q blk.bq, addBias k blk.bk, addBias v blk.bv)

theorem quiet_project (layer : Nat) (blk : QuantLayer F) (x : Tensor F) :
    Quiet (p.project layer blk x) (projected p blk x) := by
  unfold Pass.project projected
  refine .bind (quiet_rmsNorm ..) fun xb => ?_
  refine .bind (.lift _) fun outDim => ?_
  refine .bind (quiet_linear ..) fun q => ?_
  refine .bind (quiet_linear ..) fun k => ?_
  exact .bind (quiet_linear ..) fun v => .pure _

/-- A block once its heads are there. -/
def afterHeads (p : Pass F) (blk : QuantLayer F) (x : Tensor F) (heads : List F) : Res (Tensor F) := do
  let out ← Causal.linear p heads blk.wo p.cfg.dim p.cfg.dim
  let out ← vectorTensor out p.cfg.dim
  let x ← x.add out
  let xb ← Causal.normalized p x blk.rmsFfnWeight
  let gate ← Causal.linear p xb blk.w1 p.cfg.dim p.cfg.hiddenDim
  let up ← Causal.linear p xb blk.w3 p.cfg.dim p.cfg.hiddenDim
  let inner ← swiGlu gate up p.cfg.hiddenDim
  let down ← Causal.linear p inner blk.w2 p.cfg.hiddenDim p.cfg.dim
  let down ← vectorTensor down p.cfg.dim
  x.add down

theorem quiet_afterHeads (hplan : p.plan = none) (layer : Nat) (blk : QuantLayer F) (x : Tensor F)
    (heads : List F) :
    Quiet (p.attnOutput layer blk x heads >>= p.feedForward layer blk) (afterHeads p blk x heads) := by
  unfold Pass.attnOutput afterHeads
  simp only [bind_assoc]
  refine .known (quiet_capture ..) ?_
  refine .bind (quiet_linear ..) fun out => ?_
  refine .bind (.lift _) fun out => ?_
  refine .bind (.lift _) fun x => ?_
  refine .known (quiet_checkpoint hplan ..) ?_
  unfold Pass.feedForward
  refine .bind (quiet_rmsNorm ..) fun xb => ?_
  refine .bind (quiet_linear ..) fun gate => ?_
  refine .bind (quiet_linear ..) fun up => ?_
  refine .bind (.lift _) fun inner => ?_
  refine .bind (quiet_linear ..) fun down => ?_
  refine .bind (.lift _) fun down => ?_
  exact .observe (.lift _) fun x => quiet_checkpoint hplan ..

theorem quiet_embed (hplan : p.plan = none) (token : UInt32) :
    Quiet (p.embed token) (Causal.embed p token) := by
  unfold Pass.embed Causal.embed
  refine .bind (.lift _) fun row => ?_
  exact .observe (.lift _) fun x => quiet_checkpoint hplan ..

theorem quiet_logits (hplan : p.plan = none) (x : Tensor F) :
    Quiet (p.logits x) (Causal.logits p x) := by
  unfold Pass.logits Causal.logits
  refine .bind (quiet_rmsNorm ..) fun xFinal => ?_
  rw [intervene_none hplan]
  refine .known (.lift _) ?_
  refine .known (quiet_snapshot ..) ?_
  refine .known (quiet_capture ..) ?_
  refine .bind (quiet_linear ..) fun y => ?_
  rw [intervene_none hplan]
  refine .known (.lift _) ?_
  exact .known (quiet_snapshot ..) (.lift _)

end VitniTensor
