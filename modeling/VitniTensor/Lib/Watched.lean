import VitniTensor.Lib.Exec

/-!
# Watched computations

The state of a computation beside something that watches it. The watcher is told events, one after
the other; neither the outcome nor the state depends on who watches.
-/

namespace Exec

variable {σ ω η ε α β : Type} {see : ω → η → ω}

/-- From `s`, whoever watches, `m` ends in the same way and tells the same events. When it returns,
`Q` holds of the value, the state and the events. -/
def Tells (see : ω → η → ω) (m : Exec (σ × ω) ε α) (s : σ) (Q : α → σ → List η → Prop) : Prop :=
  ∃ out s' events, (∀ w, m.eval (s, w) = (out, (s', events.foldl see w))) ∧
    ∀ a, out = .ok a → Q a s' events

namespace Tells

variable {s : σ} {Q : β → σ → List η → Prop}

theorem mono {m : Exec (σ × ω) ε α} {P P' : α → σ → List η → Prop} (h : Tells see m s P)
    (weaker : ∀ a s' events, P a s' events → P' a s' events) : Tells see m s P' := by
  obtain ⟨out, s', events, heval, hok⟩ := h
  exact ⟨out, s', events, heval, fun a ha => weaker a s' events (hok a ha)⟩

theorem pure {b : β} (h : Q b s []) : Tells see (Pure.pure b : Exec (σ × ω) ε β) s Q := by
  refine ⟨.ok b, s, [], fun _ => rfl, fun a ha => ?_⟩
  cases ha
  exact h

theorem lift {x : Outcome ε β} (h : ∀ b, x = .ok b → Q b s []) :
    Tells see (Exec.lift x : Exec (σ × ω) ε β) s Q :=
  ⟨x, s, [], fun _ => rfl, h⟩

/-- A mutation of the state alone. -/
theorem update {Q : Unit → σ → List η → Prop} (f : σ → σ) (h : Q () (f s) []) :
    Tells see (Exec.update (fun t => (f t.1, t.2)) : Exec (σ × ω) ε Unit) s Q :=
  ⟨.ok (), f s, [], fun _ => rfl, fun _ _ => h⟩

theorem bind {m : Exec (σ × ω) ε α} {f : α → Exec (σ × ω) ε β} {P : α → σ → List η → Prop}
    (first : Tells see m s P) (next : ∀ a s' before, P a s' before →
      Tells see (f a) s' fun b t after => Q b t (before ++ after)) : Tells see (m >>= f) s Q := by
  obtain ⟨out, s', before, heval, hok⟩ := first
  cases out with
  | error stop =>
    refine ⟨.error stop, s', before, fun w => ?_, fun _ h => by cases h⟩
    rw [eval_bind, heval w]
  | ok a =>
    obtain ⟨out', t, after, heval', hok'⟩ := next a s' before (hok a rfl)
    refine ⟨out', t, before ++ after, fun w => ?_, hok'⟩
    rw [eval_bind, heval w, List.foldl_append]
    exact heval' _

/-- The same, with what the first part leaves to be shown. -/
theorem step {m : Exec (σ × ω) ε α} {f : α → Exec (σ × ω) ε β}
    (h : Tells see m s fun a s' before => Tells see (f a) s' fun b t after => Q b t (before ++ after)) :
    Tells see (m >>= f) s Q :=
  h.bind fun _ _ _ next => next

/-- Reading the state alone. -/
theorem read {f : σ × ω → Exec (σ × ω) ε β} {k : Exec (σ × ω) ε β} (same : ∀ w, f (s, w) = k)
    (next : Tells see k s Q) : Tells see (Exec.state >>= f) s Q := by
  obtain ⟨out, s', events, heval, hok⟩ := next
  refine ⟨out, s', events, fun w => ?_, hok⟩
  rw [eval_bind_ok (eval_state (s, w)), same]
  exact heval w

/-- A counted loop, with what holds after each iteration. -/
theorem loop {lo n : Nat} {body : Nat → α → Exec (σ × ω) ε α} {inv : Nat → α → σ → List η → Prop}
    (step : ∀ i a s' before, lo ≤ i → i < lo + n → inv i a s' before →
      Tells see (body i a) s' fun b t after => inv (i + 1) b t (before ++ after)) :
    ∀ (told : List η) (a : α) (s : σ), inv lo a s told →
      Tells see (forFrom lo n body a) s fun b t after => inv (lo + n) b t (told ++ after) := by
  induction n generalizing lo with
  | zero =>
    intro told a s h
    apply pure
    simpa only [List.append_nil, Nat.add_zero] using h
  | succ n ih =>
    intro told a s h
    refine (step lo a s told (Nat.le_refl _) (by omega) h).bind fun b t before hb => ?_
    refine (ih (fun i c s' before low high => step i c s' before (by omega) (by omega)) _ b t hb).mono
      fun c t' after hc => ?_
    have hindex : lo + 1 + n = lo + (n + 1) := by omega
    rwa [hindex, List.append_assoc] at hc

/-- What a run with one watcher shows of the runs with others. -/
theorem of_eval_ok {m : Exec (σ × ω) ε β} (h : Tells see m s Q) {w w' : ω} {b : β} {s' : σ}
    (hrun : m.eval (s, w) = (.ok b, (s', w'))) :
    ∃ events, w' = events.foldl see w ∧ Q b s' events ∧
      ∀ v, m.eval (s, v) = (.ok b, (s', events.foldl see v)) := by
  obtain ⟨out, t, events, heval, hok⟩ := h
  have heq := (heval w).symm.trans hrun
  obtain ⟨rfl, hst⟩ := Prod.mk.inj heq
  obtain ⟨rfl, rfl⟩ := Prod.mk.inj hst
  exact ⟨events, rfl, hok b rfl, heval⟩

end Tells

/-- Whatever `m` does, what the watcher knew before is kept: it only is told more. -/
structure Grows (see : ω → η → ω) (m : Exec (σ × ω) ε α) : Prop where
  told : ∀ t, ∃ events : List η, (m.eval t).2.2 = events.foldl see t.2

namespace Grows

theorem pure (a : α) : Grows see (Pure.pure a : Exec (σ × ω) ε α) :=
  ⟨fun _ => ⟨[], rfl⟩⟩

theorem lift (x : Outcome ε α) : Grows see (Exec.lift x : Exec (σ × ω) ε α) :=
  ⟨fun _ => ⟨[], rfl⟩⟩

theorem state : Grows see (Exec.state : Exec (σ × ω) ε (σ × ω)) :=
  ⟨fun _ => ⟨[], rfl⟩⟩

theorem update (f : σ → σ) : Grows see (Exec.update (fun t => (f t.1, t.2)) : Exec (σ × ω) ε Unit) :=
  ⟨fun _ => ⟨[], rfl⟩⟩

theorem bind {m : Exec (σ × ω) ε α} {f : α → Exec (σ × ω) ε β} (first : Grows see m) (next : ∀ a, Grows see (f a)) :
    Grows see (m >>= f) := by
  refine ⟨fun t => ?_⟩
  obtain ⟨before, hbefore⟩ := first.told t
  rw [eval_bind]
  rcases hrun : m.eval t with ⟨out, t'⟩
  rw [hrun] at hbefore
  cases out with
  | error stop => exact ⟨before, hbefore⟩
  | ok a =>
    obtain ⟨after, hafter⟩ := (next a).told t'
    refine ⟨before ++ after, ?_⟩
    rw [List.foldl_append, ← hbefore]
    exact hafter

theorem loop {lo n : Nat} {body : Nat → α → Exec (σ × ω) ε α} (step : ∀ i a, Grows see (body i a)) (a : α) :
    Grows see (forFrom lo n body a) := by
  induction n generalizing lo a with
  | zero => exact pure a
  | succ n ih => exact (step lo a).bind fun b => ih b

end Grows

end Exec
