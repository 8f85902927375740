import VitniTensor.Lib.Outcome

/-!
# Stateful computations that may stop

`Exec σ ε α` is a computation on a state `σ` that ends in an `Outcome`. A computation that
stops keeps the state it had reached, as a function on `&mut` data does. Two rules are
given for it: the weakest precondition of one run, and the relation of two runs that go
through the same steps on related states.
-/

abbrev Exec (σ ε : Type) := ExceptT (Stop ε) (StateM σ)

namespace Exec

variable {σ τ ε α β α' β' : Type}

/-- The outcome and the state reached. -/
def eval (m : Exec σ ε α) (s : σ) : Outcome ε α × σ :=
  StateT.run (ExceptT.run m) s

/-- A computation that leaves the state alone. -/
def lift (x : Outcome ε α) : Exec σ ε α :=
  ExceptT.mk (pure x)

/-- `return Err(e)`. -/
def fail (e : ε) : Exec σ ε α :=
  lift (Outcome.err e)

/-- The state. -/
def state : Exec σ ε σ :=
  ExceptT.mk (fun s => (.ok s, s))

/-- A mutation of the state. -/
def update (f : σ → σ) : Exec σ ε Unit :=
  ExceptT.mk (fun s => (.ok (), f s))

@[simp] theorem eval_pure (a : α) (s : σ) : (pure a : Exec σ ε α).eval s = (.ok a, s) := rfl

@[simp] theorem eval_lift (x : Outcome ε α) (s : σ) : (lift x : Exec σ ε α).eval s = (x, s) := rfl

@[simp] theorem eval_fail (e : ε) (s : σ) : (fail e : Exec σ ε α).eval s = (Outcome.err e, s) := rfl

@[simp] theorem eval_state (s : σ) : (state : Exec σ ε σ).eval s = (.ok s, s) := rfl

@[simp] theorem eval_update (f : σ → σ) (s : σ) :
    (update f : Exec σ ε Unit).eval s = (.ok (), f s) := rfl

theorem eval_bind (m : Exec σ ε α) (f : α → Exec σ ε β) (s : σ) :
    (m >>= f).eval s =
      match m.eval s with
      | (.ok a, s') => (f a).eval s'
      | (.error stop, s') => (.error stop, s') := by
  change (ExceptT.bindCont f (m s).1) (m s).2 = _
  unfold eval ExceptT.run StateT.run
  cases h : m s with
  | mk out s' => cases out <;> rfl

theorem eval_bind_ok {m : Exec σ ε α} {f : α → Exec σ ε β} {s s' : σ} {a : α}
    (h : m.eval s = (.ok a, s')) : (m >>= f).eval s = (f a).eval s' := by
  rw [eval_bind, h]

theorem eval_bind_error {m : Exec σ ε α} {f : α → Exec σ ε β} {s s' : σ} {stop : Stop ε}
    (h : m.eval s = (.error stop, s')) : (m >>= f).eval s = (.error stop, s') := by
  rw [eval_bind, h]

@[simp] theorem lift_ok (a : α) : (lift (.ok a) : Exec σ ε α) = pure a := rfl

@[ext] theorem ext {m m' : Exec σ ε α} (h : ∀ s, m.eval s = m'.eval s) : m = m' :=
  funext h

/-- What follows a fallible computation counts on its values alone. -/
theorem lift_bind_congr {x : Outcome ε α} {f g : α → Exec σ ε β} (same : ∀ a, x = .ok a → f a = g a) :
    lift x >>= f = lift x >>= g := by
  cases x with
  | error stop =>
    ext s : 1
    rw [eval_bind, eval_bind, eval_lift]
  | ok a => rw [lift_ok, pure_bind, pure_bind, same a rfl]

/-! ### Larger states and other errors -/

/-- A computation on the first component of the state. -/
def onFst (m : Exec σ ε α) : Exec (σ × τ) ε α :=
  ExceptT.mk (fun s => ((m.eval s.1).1, ((m.eval s.1).2, s.2)))

/-- A computation on the second component of the state. -/
def onSnd (m : Exec τ ε α) : Exec (σ × τ) ε α :=
  ExceptT.mk (fun s => ((m.eval s.2).1, (s.1, (m.eval s.2).2)))

/-- A computation with a local variable, which is gone afterwards. -/
def withLocal (init : σ) (m : Exec (σ × τ) ε α) : Exec τ ε α :=
  ExceptT.mk (fun t => ((m.eval (init, t)).1, (m.eval (init, t)).2.2))

/-- `map_err`. -/
def mapErr {ε' : Type} (f : ε → ε') (m : Exec σ ε α) : Exec σ ε' α :=
  ExceptT.mk (fun s =>
    match m.eval s with
    | (.ok a, s') => (.ok a, s')
    | (.error (.err e), s') => (.error (.err (f e)), s')
    | (.error (.panic p), s') => (.error (.panic p), s'))

@[simp] theorem eval_onFst (m : Exec σ ε α) (s : σ) (t : τ) :
    (onFst m : Exec (σ × τ) ε α).eval (s, t) = ((m.eval s).1, ((m.eval s).2, t)) := rfl

@[simp] theorem eval_onSnd (m : Exec τ ε α) (s : σ) (t : τ) :
    (onSnd m : Exec (σ × τ) ε α).eval (s, t) = ((m.eval t).1, (s, (m.eval t).2)) := rfl

@[simp] theorem eval_withLocal (init : σ) (m : Exec (σ × τ) ε α) (t : τ) :
    (withLocal init m).eval t = ((m.eval (init, t)).1, (m.eval (init, t)).2.2) := rfl

theorem eval_mapErr {ε' : Type} (f : ε → ε') (m : Exec σ ε α) (s : σ) :
    (mapErr f m).eval s = match m.eval s with
      | (.ok a, s') => (.ok a, s')
      | (.error (.err e), s') => (.error (.err (f e)), s')
      | (.error (.panic p), s') => (.error (.panic p), s') := rfl

theorem eval_mapErr_ok {ε' : Type} {f : ε → ε'} {m : Exec σ ε α} {s s' : σ} {a : α} :
    (mapErr f m).eval s = (.ok a, s') ↔ m.eval s = (.ok a, s') := by
  rw [eval_mapErr]
  rcases m.eval s with ⟨out, t⟩
  rcases out with (e | p) | b <;> simp

theorem eval_mapErr_error {ε' : Type} {f : ε → ε'} {m : Exec σ ε α} {s s' : σ} {stop : Stop ε}
    (h : m.eval s = (.error stop, s')) : (mapErr f m).eval s = (.error (stop.map f), s') := by
  rw [eval_mapErr, h]
  cases stop <;> rfl

/-! ### Weakest preconditions -/

/-- From `s` the computation either returns with `Q`, or stops with `E`. -/
def wp (m : Exec σ ε α) (Q : α → σ → Prop) (E : Stop ε → σ → Prop) (s : σ) : Prop :=
  match m.eval s with
  | (.ok a, s') => Q a s'
  | (.error stop, s') => E stop s'

@[simp] theorem wp_pure {a : α} {Q : α → σ → Prop} {E : Stop ε → σ → Prop} {s : σ} :
    wp (pure a) Q E s ↔ Q a s := Iff.rfl

@[simp] theorem wp_fail {e : ε} {Q : α → σ → Prop} {E : Stop ε → σ → Prop} {s : σ} :
    wp (fail e) Q E s ↔ E (.err e) s := Iff.rfl

@[simp] theorem wp_state {Q : σ → σ → Prop} {E : Stop ε → σ → Prop} {s : σ} :
    wp state Q E s ↔ Q s s := Iff.rfl

@[simp] theorem wp_update {f : σ → σ} {Q : Unit → σ → Prop} {E : Stop ε → σ → Prop} {s : σ} :
    wp (update f) Q E s ↔ Q () (f s) := Iff.rfl

@[simp] theorem wp_lift_ok {a : α} {Q : α → σ → Prop} {E : Stop ε → σ → Prop} {s : σ} :
    wp (lift (.ok a)) Q E s ↔ Q a s := Iff.rfl

theorem wp_lift {x : Outcome ε α} {Q : α → σ → Prop} {E : Stop ε → σ → Prop} {s : σ}
    (ok : ∀ a, x = .ok a → Q a s) (error : ∀ stop, x = .error stop → E stop s) :
    wp (lift x) Q E s := by
  cases h : x with
  | ok a => exact ok a h
  | error stop => exact error stop h

@[simp] theorem wp_bind {m : Exec σ ε α} {f : α → Exec σ ε β} {Q : β → σ → Prop}
    {E : Stop ε → σ → Prop} {s : σ} :
    wp (m >>= f) Q E s ↔ wp m (fun a => wp (f a) Q E) E s := by
  unfold wp
  rw [eval_bind]
  cases h : m.eval s with
  | mk out s' => cases out <;> rfl

theorem wp_mono {m : Exec σ ε α} {Q Q' : α → σ → Prop} {E E' : Stop ε → σ → Prop} {s : σ}
    (h : wp m Q E s) (ok : ∀ a s', Q a s' → Q' a s') (error : ∀ stop s', E stop s' → E' stop s') :
    wp m Q' E' s := by
  unfold wp at h ⊢
  cases run : m.eval s with
  | mk out s' =>
    rw [run] at h
    cases out with
    | ok a => exact ok a s' h
    | error stop => exact error stop s' h

/-! ### Two runs side by side -/

/-- Outcomes of the same kind: values related by `V`, or the same stop. -/
inductive Alike (V : α → α' → Prop) : Outcome ε α → Outcome ε α' → Prop where
  | ok {a : α} {a' : α'} (same : V a a') : Alike V (.ok a) (.ok a')
  | error (stop : Stop ε) : Alike V (.error stop) (.error stop)

/-- From states related by `R` the two computations end alike, in states related by `R`. -/
def Sim (R : σ → τ → Prop) (V : α → α' → Prop) (m : Exec σ ε α) (m' : Exec τ ε α') : Prop :=
  ∀ s t, R s t → Alike V (m.eval s).1 (m'.eval t).1 ∧ R (m.eval s).2 (m'.eval t).2

variable {R : σ → τ → Prop} {V : α → α' → Prop} {W : β → β' → Prop}

theorem Sim.pure {a : α} {a' : α'} (same : V a a') :
    Sim R V (Pure.pure a : Exec σ ε α) (Pure.pure a' : Exec τ ε α') :=
  fun _ _ rel => ⟨.ok same, rel⟩

theorem Sim.lift {x : Outcome ε α} {x' : Outcome ε α'} (same : Alike V x x') :
    Sim R V (Exec.lift x : Exec σ ε α) (Exec.lift x' : Exec τ ε α') :=
  fun _ _ rel => ⟨same, rel⟩

theorem Sim.update {f : σ → σ} {g : τ → τ} (same : ∀ s t, R s t → R (f s) (g t)) :
    Sim R (fun _ _ => True) (Exec.update f : Exec σ ε Unit) (Exec.update g : Exec τ ε Unit) :=
  fun s t rel => ⟨.ok trivial, same s t rel⟩

theorem Sim.bind {m : Exec σ ε α} {m' : Exec τ ε α'} {f : α → Exec σ ε β} {f' : α' → Exec τ ε β'}
    (first : Sim R V m m') (next : ∀ a a', V a a' → Sim R W (f a) (f' a')) :
    Sim R W (m >>= f) (m' >>= f') := by
  intro s t rel
  obtain ⟨alike, rel'⟩ := first s t rel
  rw [eval_bind, eval_bind]
  cases run : m.eval s with
  | mk out s' =>
    cases run' : m'.eval t with
    | mk out' t' =>
      rw [run, run'] at alike rel'
      cases alike with
      | ok same => exact next _ _ same s' t' rel'
      | error stop => exact ⟨.error stop, rel'⟩

theorem Sim.mono {V' : α → α' → Prop} {m : Exec σ ε α} {m' : Exec τ ε α'} (h : Sim R V m m')
    (weaker : ∀ a a', V a a' → V' a a') : Sim R V' m m' := by
  intro s t rel
  obtain ⟨alike, rel'⟩ := h s t rel
  refine ⟨?_, rel'⟩
  generalize (m.eval s).1 = x at alike ⊢
  generalize (m'.eval t).1 = y at alike ⊢
  cases alike with
  | ok same => exact .ok (weaker _ _ same)
  | error stop => exact .error stop

/-- Two counted loops whose bodies go through the same steps. -/
theorem Sim.loop {lo n : Nat} {body : Nat → α → Exec σ ε α} {body' : Nat → α' → Exec τ ε α'}
    (step : ∀ i a a', lo ≤ i → i < lo + n → V a a' → Sim R V (body i a) (body' i a'))
    {a : α} {a' : α'} (same : V a a') :
    Sim R V (forFrom lo n body a) (forFrom lo n body' a') := by
  induction n generalizing lo a a' with
  | zero => exact Sim.pure same
  | succ n ih =>
    refine (step lo a a' (Nat.le_refl _) (by omega) same).bind fun b b' same' => ?_
    exact ih (fun i c c' low high => step i c c' (by omega) (by omega)) same'

/-- A component of the states that both computations treat alike. -/
theorem Sim.onFst {ρ : Type} {m : Exec σ ε α} {m' : Exec τ ε α'} (h : Sim R V m m') :
    Sim (fun (a : σ × ρ) (b : τ × ρ) => R a.1 b.1 ∧ a.2 = b.2) V (Exec.onFst m) (Exec.onFst m') := by
  rintro ⟨s, r⟩ ⟨t, r'⟩ ⟨rel, rfl⟩
  obtain ⟨alike, rel'⟩ := h s t rel
  exact ⟨alike, rel', rfl⟩

theorem Sim.onSnd {ρ : Type} (m : Exec ρ ε α) :
    Sim (fun (a : σ × ρ) (b : τ × ρ) => R a.1 b.1 ∧ a.2 = b.2) Eq (Exec.onSnd m) (Exec.onSnd m) := by
  rintro ⟨s, r⟩ ⟨t, r'⟩ ⟨rel, rfl⟩
  refine ⟨?_, rel, rfl⟩
  rw [eval_onSnd, eval_onSnd]
  cases (m.eval r).1 with
  | ok a => exact .ok rfl
  | error stop => exact .error stop

theorem Sim.mapErr {ε' : Type} {m : Exec σ ε α} {m' : Exec τ ε α'} (f : ε → ε') (h : Sim R V m m') :
    Sim R V (Exec.mapErr f m) (Exec.mapErr f m') := by
  intro s t rel
  obtain ⟨alike, rel'⟩ := h s t rel
  rw [eval_mapErr, eval_mapErr]
  rcases hrun : m.eval s with ⟨out, s'⟩
  rcases hrun' : m'.eval t with ⟨out', t'⟩
  rw [hrun, hrun'] at alike rel'
  cases alike with
  | ok same => exact ⟨.ok same, rel'⟩
  | error stop => cases stop <;> exact ⟨.error _, rel'⟩

/-! ### Runs that may be cut short -/

/-- Outcomes of the same kind, except that the first may stop in a way that says nothing about
the second, and that both may stop where the second was beyond its means. -/
inductive UpTo (Lost Beyond : Stop ε → Prop) (V : α → α' → Prop) : Outcome ε α → Outcome ε α' → Prop where
  | ok {a : α} {a' : α'} (same : V a a') : UpTo Lost Beyond V (.ok a) (.ok a')
  | lost {stop : Stop ε} (short : Lost stop) (x' : Outcome ε α') : UpTo Lost Beyond V (.error stop) x'
  | beyond {stop' : Stop ε} (stop : Stop ε) (large : Beyond stop') : UpTo Lost Beyond V (.error stop) (.error stop')
  | error (stop : Stop ε) : UpTo Lost Beyond V (.error stop) (.error stop)

/-- From related states the second computation does what the first does, as far as the first
one gets. -/
def SimUpTo (Lost Beyond : Stop ε → Prop) (R : σ → τ → Prop) (V : α → α' → Prop) (m : Exec σ ε α)
    (m' : Exec τ ε α') : Prop :=
  ∀ s t, R s t → UpTo Lost Beyond V (m.eval s).1 (m'.eval t).1 ∧
    ∀ a, (m.eval s).1 = .ok a → R (m.eval s).2 (m'.eval t).2

section Short

variable {Lost Beyond : Stop ε → Prop}

theorem SimUpTo.pure {a : α} {a' : α'} (same : V a a') :
    SimUpTo Lost Beyond R V (Pure.pure a : Exec σ ε α) (Pure.pure a' : Exec τ ε α') :=
  fun _ _ rel => ⟨.ok same, fun _ _ => rel⟩

theorem SimUpTo.lift {x : Outcome ε α} {x' : Outcome ε α'} (same : UpTo Lost Beyond V x x') :
    SimUpTo Lost Beyond R V (Exec.lift x : Exec σ ε α) (Exec.lift x' : Exec τ ε α') :=
  fun _ _ rel => ⟨same, fun _ _ => rel⟩

theorem UpTo.refl (x : Outcome ε α) : UpTo Lost Beyond Eq x x := by
  cases x with
  | ok a => exact .ok rfl
  | error stop => exact .error stop

theorem SimUpTo.fail (e : ε) :
    SimUpTo Lost Beyond R V (Exec.fail e : Exec σ ε α) (Exec.fail e : Exec τ ε α') :=
  fun _ _ rel => ⟨.error _, fun _ _ => rel⟩

theorem SimUpTo.state : SimUpTo Lost Beyond R R (Exec.state : Exec σ ε σ) (Exec.state : Exec τ ε τ) :=
  fun _ _ rel => ⟨.ok rel, fun _ _ => rel⟩

theorem SimUpTo.update {f : σ → σ} {g : τ → τ} (same : ∀ s t, R s t → R (f s) (g t)) :
    SimUpTo Lost Beyond R (fun _ _ => True) (Exec.update f : Exec σ ε Unit) (Exec.update g : Exec τ ε Unit) :=
  fun s t rel => ⟨.ok trivial, fun _ _ => same s t rel⟩

theorem SimUpTo.bind {m : Exec σ ε α} {m' : Exec τ ε α'} {f : α → Exec σ ε β} {f' : α' → Exec τ ε β'}
    (first : SimUpTo Lost Beyond R V m m') (next : ∀ a a', V a a' → SimUpTo Lost Beyond R W (f a) (f' a')) :
    SimUpTo Lost Beyond R W (m >>= f) (m' >>= f') := by
  intro s t rel
  obtain ⟨alike, after⟩ := first s t rel
  rw [eval_bind, eval_bind]
  cases run : m.eval s with
  | mk out s' =>
    cases run' : m'.eval t with
    | mk out' t' =>
      rw [run, run'] at alike after
      cases alike with
      | ok same => exact next _ _ same s' t' (after _ rfl)
      | lost short => exact ⟨.lost short _, fun _ eq => nomatch eq⟩
      | beyond stop large => exact ⟨.beyond stop large, fun _ eq => nomatch eq⟩
      | error stop => exact ⟨.error stop, fun _ eq => nomatch eq⟩

end Short

/-! ### Histories -/

theorem eval_bind_eq_ok {m : Exec σ ε α} {f : α → Exec σ ε β} {s s' : σ} {b : β} :
    (m >>= f).eval s = (.ok b, s') ↔
      ∃ a t, m.eval s = (.ok a, t) ∧ (f a).eval t = (.ok b, s') := by
  rw [eval_bind]
  rcases m.eval s with ⟨stop | a, t⟩ <;> simp

theorem eval_lift_bind_eq_ok {x : Outcome ε α} {f : α → Exec σ ε β} {s s' : σ} {b : β} :
    (lift x >>= f).eval s = (.ok b, s') ↔ ∃ a, x = .ok a ∧ (f a).eval s = (.ok b, s') := by
  rw [eval_bind, eval_lift]
  cases x <;> simp

theorem eval_state_bind {f : σ → Exec σ ε β} (s : σ) : (state >>= f).eval s = (f s).eval s :=
  eval_bind_ok (eval_state s)

theorem eval_update_bind {g : σ → σ} {f : Unit → Exec σ ε β} (s : σ) :
    (update g >>= f).eval s = (f ()).eval (g s) :=
  eval_bind_ok (eval_update g s)

/-- The values and states that a loop that ended well went through. -/
theorem history {lo n : Nat} {body : Nat → α → Exec σ ε α} {a b : α} {s s' : σ}
    (h : (forFrom lo n body a).eval s = (.ok b, s')) :
    ∃ past : Nat → α × σ, past 0 = (a, s) ∧ past n = (b, s') ∧
      ∀ i < n, (body (lo + i) (past i).1).eval (past i).2 = (.ok (past (i + 1)).1, (past (i + 1)).2) := by
  induction n generalizing b s' with
  | zero =>
    cases h
    exact ⟨fun _ => (a, s), rfl, rfl, fun i low => absurd low (Nat.not_lt_zero i)⟩
  | succ n ih =>
    rw [forFrom_succ_last] at h
    obtain ⟨c, t, front, last⟩ := eval_bind_eq_ok.mp h
    obtain ⟨past, start, stop, steps⟩ := ih front
    have after : ¬n + 1 ≤ n := Nat.not_succ_le_self n
    refine ⟨fun i => if i ≤ n then past i else (b, s'), ?_, ?_, fun i low => ?_⟩
    · simp only [Nat.zero_le, if_true, start]
    · simp only [after, if_false]
    · have here : i ≤ n := by omega
      by_cases inner : i + 1 ≤ n
      · simpa only [here, inner, if_true] using steps i inner
      · obtain rfl : i = n := by omega
        simp only [here, inner, if_true, if_false, stop, last]

/-! ### Values returned -/

/-- Whatever `m` returns has `P`. -/
def Yields (m : Exec σ ε α) (P : α → Prop) : Prop :=
  ∀ s a s', m.eval s = (.ok a, s') → P a

theorem Yields.pure {P : α → Prop} {a : α} (h : P a) : Yields (Pure.pure a : Exec σ ε α) P := by
  rintro s b s' ⟨⟩
  exact h

theorem Yields.fail {P : α → Prop} (e : ε) : Yields (Exec.fail e : Exec σ ε α) P := by
  rintro s a s' ⟨⟩

theorem Yields.bind {m : Exec σ ε α} {f : α → Exec σ ε β} {P : α → Prop} {Q : β → Prop}
    (first : Yields m P) (next : ∀ a, P a → Yields (f a) Q) : Yields (m >>= f) Q := by
  intro s b s' run
  obtain ⟨a, t, front, back⟩ := eval_bind_eq_ok.mp run
  exact next a (first s a t front) t b s' back

/-- Where nothing is asked of the first value. -/
theorem Yields.after {m : Exec σ ε α} {f : α → Exec σ ε β} {Q : β → Prop}
    (next : ∀ a, Yields (f a) Q) : Yields (m >>= f) Q := by
  have first : Yields m fun _ => True := fun _ _ _ _ => trivial
  exact first.bind fun a _ => next a

/-- Where the value returned is made of what is read. -/
theorem Yields.map {m : Exec σ ε α} {f : α → β} {P : α → Prop} {Q : β → Prop} (first : Yields m P)
    (h : ∀ a, P a → Q (f a)) : Yields (m >>= fun a => Pure.pure (f a)) Q :=
  first.bind fun a ha => Yields.pure (h a ha)

end Exec
