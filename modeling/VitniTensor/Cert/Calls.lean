import VitniTensor.Cert.Sink

/-!
# The calls of a sink

A sink is a consumer of calls that come one at a time. What `finalize_with_sink` does to it is one
list of calls, which depends on the builder and the tier alone, cut off behind the first call that is
refused.
-/

namespace VitniTensor

open Exec

variable {σ ε : Type}

/-- The call that an event tells of. -/
def CertSink.call (sink : CertSink σ ε) : SinkEvent → Exec σ ε Unit
  | .request tier => sink.onRequest tier
  | .input name bytes => sink.onInput name bytes
  | .op record => sink.onOp record
  | .activation record => sink.onActivation record
  | .intervention record => sink.onIntervention record
  | .output name bytes => sink.onOutput name bytes
  | .finalize => do
    let _ ← sink.onFinalize
    pure ()

namespace CertBuilder

/-- The calls before `on_finalize`. -/
def declared (b : CertBuilder) (tier : UInt8) : List SinkEvent :=
  [.request tier] ++ (b.inputs.map fun f => .input f.name f.bytes) ++ b.ops.map .op ++
    b.activations.map .activation ++ b.interventions.map .intervention ++
    b.outputs.map fun f => .output f.name f.bytes

/-- The full sequence of calls. -/
def calls (b : CertBuilder) (tier : UInt8) : List SinkEvent :=
  b.declared tier ++ [.finalize]

/-- The loops of `finalize_with_sink` are one loop over its calls. -/
theorem replay_eq (b : CertBuilder) (sink : CertSink σ ε) (tier : UInt8) :
    b.replay sink tier = (b.declared tier).forM sink.call := by
  unfold replay declared
  simp only [List.forM_eq_forM, List.forM_append, List.forM_cons, List.forM_nil, List.forM_map, bind_assoc,
    pure_bind]
  rfl

theorem forM_calls (blake3 : Blake3) (b : CertBuilder) (sink : CertSink σ ε) (tier : UInt8) :
    (b.calls tier).forM sink.call = (do
      let _ ← b.finalizeWithSink blake3 sink tier
      pure ()) := by
  unfold calls finalizeWithSink
  rw [replay_eq]
  simp only [List.forM_eq_forM, List.forM_append, List.forM_cons, List.forM_nil, CertSink.call, bind_assoc,
    pure_bind]

/-- What a run that ends well returns. -/
theorem finalizeWithSink_eq_ok {blake3 : Blake3} {b : CertBuilder} {sink : CertSink σ ε} {tier : UInt8}
    {s s' : σ} {r : Cert × UInt64} :
    (b.finalizeWithSink blake3 sink tier).eval s = (.ok r, s') ↔
      ∃ t, (b.replay sink tier).eval s = (.ok (), t) ∧ sink.onFinalize.eval t = (.ok r.2, s') ∧
        r.1 = b.finalize blake3 := by
  unfold finalizeWithSink
  rw [eval_bind_eq_ok]
  constructor
  · rintro ⟨_, t, hreplay, hrest⟩
    obtain ⟨certId, _, hfinalize, hpure⟩ := eval_bind_eq_ok.mp hrest
    cases hpure
    exact ⟨t, hreplay, hfinalize, rfl⟩
  · rintro ⟨t, hreplay, hfinalize, hcert⟩
    refine ⟨(), t, hreplay, ?_⟩
    rw [eval_bind_ok hfinalize, ← hcert]
    rfl

end CertBuilder

/-! ### Refused calls -/

variable {sink : CertSink σ ε}

/-- The sink takes all of the calls, one after another. -/
inductive CertSink.Takes (sink : CertSink σ ε) : σ → List SinkEvent → σ → Prop where
  | none (s : σ) : Takes sink s [] s
  | one {s t u : σ} {event : SinkEvent} {events : List SinkEvent} (first : (sink.call event).eval s = (.ok (), t))
      (rest : Takes sink t events u) : Takes sink s (event :: events) u

/-- Behind the calls of `taken`, which the sink takes, it refuses `event` and is left in `t`. -/
def CertSink.Refuses (sink : CertSink σ ε) (s : σ) (taken : List SinkEvent) (event : SinkEvent) (stop : Stop ε)
    (t : σ) : Prop :=
  ∃ u, sink.Takes s taken u ∧ (sink.call event).eval u = (.error stop, t)

namespace CertSink

theorem takes_iff {events : List SinkEvent} {s t : σ} :
    sink.Takes s events t ↔ (events.forM sink.call).eval s = (.ok (), t) := by
  constructor
  · intro h
    induction h with
    | none s => rfl
    | one hfirst _ ih =>
      rw [List.forM_eq_forM] at ih ⊢
      rw [List.forM_cons, eval_bind_ok hfirst, ih]
  · intro h
    induction events generalizing s with
    | nil =>
      cases h
      exact .none _
    | cons event events ih =>
      rw [List.forM_eq_forM, List.forM_cons] at h
      obtain ⟨_, u, hfirst, hrest⟩ := eval_bind_eq_ok.mp h
      exact .one hfirst (ih hrest)

/-- The loop stops at the refused call, whatever calls are left. -/
theorem Refuses.forM {taken left : List SinkEvent} {event : SinkEvent} {s t : σ} {stop : Stop ε}
    (h : sink.Refuses s taken event stop t) :
    ((taken ++ event :: left).forM sink.call).eval s = (.error stop, t) := by
  obtain ⟨u, htaken, hrefused⟩ := h
  rw [List.forM_eq_forM, List.forM_append, ← List.forM_eq_forM, eval_bind_ok (takes_iff.mp htaken),
    List.forM_eq_forM, List.forM_cons, eval_bind_error hrefused]

/-- The calls are all taken, or one of them is refused behind those before it. -/
theorem takes_or_refuses (sink : CertSink σ ε) (s : σ) (events : List SinkEvent) :
    (∃ t, sink.Takes s events t) ∨
      ∃ taken event left stop t, events = taken ++ event :: left ∧ sink.Refuses s taken event stop t := by
  induction events generalizing s with
  | nil => exact .inl ⟨s, .none s⟩
  | cons event events ih =>
    rcases hcall : (sink.call event).eval s with ⟨stop | ⟨⟩, u⟩
    · exact .inr ⟨[], event, events, stop, u, rfl, s, .none s, hcall⟩
    · rcases ih u with ⟨t, hrest⟩ | ⟨taken, event', left, stop, t, rfl, v, htaken, hrefused⟩
      · exact .inl ⟨t, .one hcall hrest⟩
      · exact .inr ⟨event :: taken, event', left, stop, t, rfl, v, .one hcall htaken, hrefused⟩

/-! ### The record of the calls -/

/-- A call that is written down when it is made, whether or not it is refused. -/
def noted {α : Type} (event : SinkEvent) (m : Exec σ ε α) : Exec (σ × List SinkEvent) ε α := do
  update fun s => (s.1, s.2 ++ [event])
  onFst m

/-- The same sink beside a list of the calls it has received. -/
def logged (sink : CertSink σ ε) : CertSink (σ × List SinkEvent) ε where
  onRequest tier := noted (.request tier) (sink.onRequest tier)
  onInput name bytes := noted (.input name bytes) (sink.onInput name bytes)
  onOp record := noted (.op record) (sink.onOp record)
  onActivation record := noted (.activation record) (sink.onActivation record)
  onIntervention record := noted (.intervention record) (sink.onIntervention record)
  onOutput name bytes := noted (.output name bytes) (sink.onOutput name bytes)
  onFinalize := noted .finalize sink.onFinalize

theorem eval_noted {α : Type} (event : SinkEvent) (m : Exec σ ε α) (s : σ) (log : List SinkEvent) :
    (noted event m).eval (s, log) = ((m.eval s).1, ((m.eval s).2, log ++ [event])) := rfl

theorem eval_call_logged (sink : CertSink σ ε) (event : SinkEvent) (s : σ) (log : List SinkEvent) :
    (sink.logged.call event).eval (s, log) =
      (((sink.call event).eval s).1, (((sink.call event).eval s).2, log ++ [event])) := by
  cases event with
  | finalize =>
    unfold call logged
    dsimp only
    rw [eval_bind, eval_bind, eval_noted]
    rcases sink.onFinalize.eval s with ⟨stop | id, t⟩ <;> rfl
  | _ => rfl

theorem Takes.logged {events : List SinkEvent} {s t : σ} (h : sink.Takes s events t) (log : List SinkEvent) :
    sink.logged.Takes (s, log) events (t, log ++ events) := by
  induction h generalizing log with
  | none s =>
    rw [List.append_nil]
    exact .none _
  | @one s u t event events hfirst _ ih =>
    have hrest := ih (log ++ [event])
    rw [List.append_assoc] at hrest
    refine .one ?_ hrest
    rw [eval_call_logged, hfirst]

theorem Refuses.logged {taken : List SinkEvent} {event : SinkEvent} {s t : σ} {stop : Stop ε}
    (h : sink.Refuses s taken event stop t) (log : List SinkEvent) :
    sink.logged.Refuses (s, log) taken event stop (t, log ++ taken ++ [event]) := by
  obtain ⟨u, htaken, hrefused⟩ := h
  refine ⟨_, htaken.logged log, ?_⟩
  rw [eval_call_logged, hrefused]

end CertSink

namespace CertBuilder

variable {blake3 : Blake3} {b : CertBuilder} {tier : UInt8}

/-- A refused call is how the function ends. -/
theorem finalizeWithSink_refused {taken left : List SinkEvent} {event : SinkEvent} {s t : σ} {stop : Stop ε}
    (hcalls : b.calls tier = taken ++ event :: left) (h : sink.Refuses s taken event stop t) :
    (b.finalizeWithSink blake3 sink tier).eval s = (.error stop, t) := by
  have hforM : ((taken ++ event :: left).forM sink.call).eval s = _ := h.forM
  rw [← hcalls, forM_calls blake3, eval_bind] at hforM
  rcases hrun : (b.finalizeWithSink blake3 sink tier).eval s with ⟨stop' | r, u⟩
  · simpa [hrun] using hforM
  · simp [hrun] at hforM

/-- It ends well exactly when every call is taken, and then every call has been made. -/
theorem finalizeWithSink_taken_iff {s t : σ} :
    (∃ r, (b.finalizeWithSink blake3 sink tier).eval s = (.ok r, t)) ↔ sink.Takes s (b.calls tier) t := by
  rw [CertSink.takes_iff, forM_calls blake3, eval_bind]
  rcases (b.finalizeWithSink blake3 sink tier).eval s with ⟨stop | r, u⟩
  · simp
  · simp

/-- `on_finalize` is the last call and no other. -/
theorem finalize_last {taken left : List SinkEvent} {event : SinkEvent}
    (hcalls : b.calls tier = taken ++ event :: left) :
    SinkEvent.finalize ∉ taken ∧ (event = .finalize ↔ left = []) := by
  have hdeclared : SinkEvent.finalize ∉ b.declared tier := by
    unfold declared
    simp
  unfold calls at hcalls
  rcases List.eq_nil_or_concat left with rfl | ⟨front, last, rfl⟩
  · obtain ⟨hfront, hlast⟩ := List.append_inj' hcalls rfl
    rw [← hfront, ← List.head_eq_of_cons_eq hlast]
    exact ⟨hdeclared, by simp⟩
  · have hsplit : taken ++ event :: (front.concat last) = (taken ++ event :: front) ++ [last] := by simp
    rw [hsplit] at hcalls
    obtain ⟨hfront, -⟩ := List.append_inj' hcalls rfl
    rw [hfront] at hdeclared
    simp only [List.mem_append, List.mem_cons, not_or] at hdeclared
    refine ⟨hdeclared.1, fun h => absurd h.symm hdeclared.2.1, fun h => ?_⟩
    simp at h

end CertBuilder

end VitniTensor
