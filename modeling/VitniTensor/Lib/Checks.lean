import VitniTensor.Lib.Exec

/-!
# Runs by their checks

A computation goes through checks, in an order that is known before it runs. It gets to its end where
they all pass; where one fails it stops, either in a way that the code provides for (an error, or no room
for a vector) or in a panic. What counts is the first failure.
-/

/-- A condition that a computation depends on. -/
structure Check where
  passes : Bool
  /-- A failure is an error or a lack of memory, and not a panic of another kind. -/
  handled : Bool

namespace Check

/-- A condition that the code tests. -/
def test (c : Prop) [Decidable c] : Check := ⟨decide c, true⟩

/-- A condition that the code relies on. -/
def trust (c : Prop) [Decidable c] : Check := ⟨decide c, false⟩

theorem trust_congr {c d : Prop} [Decidable c] [Decidable d] (h : c ↔ d) : trust c = trust d := by
  unfold trust
  rw [decide_eq_decide.mpr h]

abbrev AllPass (cs : List Check) : Prop := ∀ c ∈ cs, c.passes = true

/-- The first failure, if there is one, is handled. -/
def Safe : List Check → Prop
  | [] => True
  | c :: cs => if c.passes then Safe cs else c.handled = true

instance instDecidableSafe : (cs : List Check) → Decidable (Safe cs)
  | [] => .isTrue trivial
  | c :: cs =>
    have := instDecidableSafe cs
    inferInstanceAs (Decidable (if c.passes then Safe cs else c.handled = true))

variable {cs ds : List Check}

theorem allPass_cons {c : Check} : AllPass (c :: cs) ↔ c.passes = true ∧ AllPass cs :=
  List.forall_mem_cons

theorem allPass_append : AllPass (cs ++ ds) ↔ AllPass cs ∧ AllPass ds :=
  List.forall_mem_append

theorem Safe.of_allPass (h : AllPass cs) : Safe cs := by
  induction cs with
  | nil => trivial
  | cons c cs ih =>
    obtain ⟨hc, hcs⟩ := allPass_cons.mp h
    rw [Safe, if_pos hc]
    exact ih hcs

/-- The second part counts only where the first one gets to its end. -/
theorem safe_append : Safe (cs ++ ds) ↔ Safe cs ∧ (AllPass cs → Safe ds) := by
  induction cs with
  | nil => exact ⟨fun h => ⟨trivial, fun _ => h⟩, fun h => h.2 fun _ hmem => absurd hmem List.not_mem_nil⟩
  | cons c cs ih =>
    rw [List.cons_append, Safe, Safe, allPass_cons]
    by_cases hc : c.passes = true
    · rw [if_pos hc, if_pos hc, ih]
      simp only [hc, true_and]
    · rw [if_neg hc, if_neg hc]
      exact ⟨fun h => ⟨h, fun hall => absurd hall.1 hc⟩, And.left⟩

end Check

open Check

/-! ### Outcomes -/

namespace Outcome

variable {ε α β : Type}

/-- An error, or a vector that there is no room for. -/
def Handled : Stop ε → Prop
  | .err _ => True
  | .panic p => p = .capacityOverflow

/-- The computation ends with a value or an error, unless it runs out of memory. -/
def Survives (x : Outcome ε α) : Prop :=
  ∀ stop, x = .error stop → Handled stop

/-- How a computation ends by its checks: with a value of the kind `V`, or as the first failure says. -/
def Checked (cs : List Check) (V : α → Prop) : Outcome ε α → Prop
  | .ok a => AllPass cs ∧ V a
  | .error stop => ¬AllPass cs ∧ (Safe cs ↔ Handled stop)

variable {cs ds : List Check} {V : α → Prop} {W : β → Prop} {x : Outcome ε α}

theorem survives_ok (a : α) : Survives (.ok a : Outcome ε α) := by
  rintro stop ⟨⟩

theorem survives_bind {f : α → Outcome ε β} : (x >>= f).Survives ↔ x.Survives ∧ ∀ a, x = .ok a → (f a).Survives := by
  constructor
  · exact fun h => ⟨fun stop hstop => h stop (bind_eq_error.mpr (.inl hstop)),
      fun a ha stop hstop => h stop (bind_eq_error.mpr (.inr ⟨a, ha, hstop⟩))⟩
  · rintro ⟨hfirst, hrest⟩ stop hstop
    rcases bind_eq_error.mp hstop with hstop | ⟨a, ha, hstop⟩
    · exact hfirst stop hstop
    · exact hrest a ha stop hstop

theorem Checked.survives_iff (h : Checked cs V x) : x.Survives ↔ Safe cs := by
  cases x with
  | ok a => exact iff_of_true (survives_ok a) (.of_allPass h.1)
  | error stop => exact ⟨fun hx => h.2.mpr (hx stop rfl), fun hsafe _ hstop => Except.error.inj hstop ▸ h.2.mp hsafe⟩

theorem Checked.ok_of_allPass (h : Checked cs V x) (hall : AllPass cs) : ∃ a, x = .ok a ∧ V a := by
  cases x with
  | ok a => exact ⟨a, rfl, h.2⟩
  | error stop => exact absurd hall h.1

theorem checked_ok {a : α} (ha : V a) : Checked [] V (.ok a : Outcome ε α) :=
  ⟨fun _ hmem => absurd hmem List.not_mem_nil, ha⟩

theorem Checked.of_ok {a : α} (hx : x = .ok a) (ha : V a) : Checked [] V x :=
  hx ▸ checked_ok ha

theorem Checked.mono {V' : α → Prop} (h : Checked cs V x) (hweaker : ∀ a, V a → V' a) : Checked cs V' x := by
  cases x with
  | ok a => exact ⟨h.1, hweaker a h.2⟩
  | error stop => exact h

/-- A stop in the first part. -/
theorem Checked.stopped {stop : Stop ε} (h : Checked cs V (.error stop)) : Checked (cs ++ ds) W (.error stop) := by
  refine ⟨fun hall => h.1 (allPass_append.mp hall).1, ?_⟩
  rw [safe_append]
  exact ⟨fun hsafe => h.2.mp hsafe.1, fun hkind => ⟨h.2.mpr hkind, fun hall => absurd hall h.1⟩⟩

/-- The second part, once the first one got to its end. -/
theorem Checked.reached (hall : AllPass cs) (h : Checked ds V x) : Checked (cs ++ ds) V x := by
  cases x with
  | ok a => exact ⟨allPass_append.mpr ⟨hall, h.1⟩, h.2⟩
  | error stop =>
    refine ⟨fun hboth => h.1 (allPass_append.mp hboth).2, ?_⟩
    rw [safe_append]
    exact ⟨fun hsafe => h.2.mp (hsafe.2 hall), fun hkind => ⟨.of_allPass hall, fun _ => h.2.mpr hkind⟩⟩

theorem Checked.bind {f : α → Outcome ε β} (hx : Checked cs V x) (hf : ∀ a, V a → Checked ds W (f a)) :
    Checked (cs ++ ds) W (x >>= f) := by
  cases x with
  | error stop => exact hx.stopped
  | ok a => exact .reached hx.1 (hf a hx.2)

/-- A first part that depends on nothing. -/
theorem Checked.after {f : α → Outcome ε β} (hx : Checked [] V x) (hf : ∀ a, V a → Checked ds W (f a)) :
    Checked ds W (x >>= f) :=
  hx.bind hf

/-- A last part that depends on nothing. -/
theorem Checked.before {f : α → Outcome ε β} (hx : Checked cs V x) (hf : ∀ a, V a → Checked [] W (f a)) :
    Checked cs W (x >>= f) := by
  have hboth := hx.bind hf
  rwa [List.append_nil] at hboth

/-- More about the value. -/
theorem Checked.value (h : Checked cs V x) {U : α → Prop} (hvalue : ∀ a, x = .ok a → U a) : Checked cs U x := by
  cases x with
  | ok a => exact ⟨h.1, hvalue a rfl⟩
  | error stop => exact h

/-- One condition: the value where it holds, a stop of the given kind where it does not. -/
theorem Checked.single {c : Prop} [Decidable c] {handled : Bool} (hvalue : c → ∃ a, x = .ok a ∧ V a)
    (hstop : ¬c → ∃ stop, x = .error stop ∧ (handled = true ↔ Handled stop)) :
    Checked [⟨decide c, handled⟩] V x := by
  by_cases hc : c
  · obtain ⟨a, rfl, ha⟩ := hvalue hc
    exact ⟨List.forall_mem_singleton.mpr (decide_eq_true hc), ha⟩
  · obtain ⟨stop, rfl, hkind⟩ := hstop hc
    have hfails : ¬decide c = true := fun h => hc (of_decide_eq_true h)
    refine ⟨fun hall => hfails (hall _ List.mem_cons_self), ?_⟩
    rw [Safe, if_neg hfails, hkind]

/-- A computation that returns wherever its first part does. -/
theorem Checked.whole {f : α → Outcome ε β} (hx : Checked cs V x) (hwhole : ∀ a, V a → ∃ b, (x >>= f) = .ok b) :
    Checked cs (fun _ => True) (x >>= f) := by
  cases x with
  | error stop => exact hx
  | ok a =>
    obtain ⟨b, hb⟩ := hwhole a hx.2
    rw [hb]
    exact ⟨hx.1, trivial⟩

/-- A condition that the code tests in front of the rest. -/
theorem Checked.test {c : Prop} [Decidable c] {e : ε} (hx : c → Checked cs V x) :
    Checked (Check.test c :: cs) V (if c then x else err e) := by
  by_cases hc : c
  · rw [if_pos hc]
    have hfirst : Checked [Check.test c] (fun _ : Unit => True) (.ok () : Outcome ε Unit) :=
      .single (fun _ => ⟨(), rfl, trivial⟩) fun h => absurd hc h
    exact hfirst.bind fun _ _ => hx hc
  · rw [if_neg hc]
    have hfirst : Checked [Check.test c] (fun _ : Unit => False) (err e : Outcome ε Unit) :=
      .single (fun h => absurd h hc) fun _ => ⟨_, rfl, iff_of_true rfl trivial⟩
    exact hfirst.bind (f := fun _ => err e) (W := V) fun _ h => h.elim

/-- The same test by its failure. -/
theorem Checked.unless {c d : Prop} [Decidable c] [Decidable d] {e : ε} (hfails : d ↔ ¬c) (hx : c → Checked cs V x) :
    Checked (Check.test c :: cs) V (if d then err e else x) := by
  have hsame : (if d then err e else x) = if c then x else err e := by
    by_cases hc : c
    · rw [if_neg (fun hd => hfails.mp hd hc), if_pos hc]
    · rw [if_pos (hfails.mpr hc), if_neg hc]
  rw [hsame]
  exact .test hx

/-- A test that passed already. -/
theorem checked_cons {c : Check} (hc : c.passes = true) : Checked (c :: cs) V x ↔ Checked cs V x := by
  have hall : AllPass (c :: cs) ↔ AllPass cs := allPass_cons.trans (and_iff_right hc)
  have hsafe : Safe (c :: cs) ↔ Safe cs := by rw [Safe, if_pos hc]
  cases x with
  | ok a => exact and_congr_left' hall
  | error stop => exact and_congr (not_congr hall) (iff_congr hsafe Iff.rfl)

/-- The test once more. -/
theorem Checked.again {c d : Prop} [Decidable c] [Decidable d] {e : ε} (hfails : d ↔ ¬c)
    (hx : Checked (Check.test c :: cs) V x) : Checked (Check.test c :: cs) V (if d then err e else x) :=
  .unless hfails fun hc => (checked_cons (decide_eq_true hc)).mp hx

/-- A test that fails. -/
theorem checked_fails {c : Check} {stop : Stop ε} (hc : c.passes = false) (hkind : c.handled = true ↔ Handled stop) :
    Checked (c :: cs) V (.error stop) := by
  have hfails : ¬c.passes = true := by rw [hc]; exact Bool.false_ne_true
  refine ⟨fun hall => hfails (hall _ List.mem_cons_self), ?_⟩
  rw [Safe, if_neg hfails, hkind]

/-- A computation that the code refuses. -/
theorem checked_refused (e : ε) : Checked [Check.test False] V (err e : Outcome ε α) :=
  .single False.elim fun _ => ⟨_, rfl, iff_of_true rfl trivial⟩

theorem checked_word (n : Nat) : Checked [trust (n < wordSize)] (· = n) (word n : Outcome ε Nat) := by
  refine .single (fun h => ⟨n, word_of_lt h, rfl⟩) fun h => ⟨_, if_neg h, ?_⟩
  simp [Handled]

theorem checked_div (a b : Nat) : Checked [trust (0 < b)] (· = a / b) (div a b : Outcome ε Nat) := by
  refine .single (fun h => ⟨a / b, div_of_pos h, rfl⟩) fun h => ⟨_, if_pos (by omega), ?_⟩
  simp [Handled]

/-! ### Computations without an error -/

/-- What stops the computation is a fault: no error, and no lack of memory. -/
def Faults (x : Outcome ε α) : Prop :=
  ∀ stop, x = .error stop → ¬Handled stop

theorem faults_ok (a : α) : Faults (.ok a : Outcome ε α) := by
  rintro stop ⟨⟩

theorem Faults.of_ok (h : ∃ a, x = .ok a) : Faults x := by
  obtain ⟨a, rfl⟩ := h
  exact faults_ok a

theorem Faults.errorless (h : Faults x) : x.Errorless :=
  fun _ he => h _ he trivial

theorem Faults.bind {f : α → Outcome ε β} (hx : Faults x) (hf : ∀ a, x = .ok a → Faults (f a)) : Faults (x >>= f) := by
  intro stop hstop
  rcases bind_eq_error.mp hstop with hfirst | ⟨a, ha, hnext⟩
  · exact hx stop hfirst
  · exact hf a ha stop hnext

theorem faults_slice (xs : List α) (lo hi : Nat) : Faults (slice xs lo hi : Outcome ε (List α)) := by
  unfold slice
  split
  next => exact faults_ok _
  next => rintro stop ⟨⟩; simp [Handled]

theorem faults_index (xs : List α) (i : Nat) : Faults (index xs i : Outcome ε α) := by
  unfold index
  split
  next => exact faults_ok _
  next => rintro stop ⟨⟩; simp [Handled]

theorem faults_store (xs : List α) (i : Nat) (a : α) : Faults (store xs i a : Outcome ε (List α)) := by
  unfold store
  split
  next => exact faults_ok _
  next => rintro stop ⟨⟩; simp [Handled]

theorem faults_div (a b : Nat) : Faults (div a b : Outcome ε Nat) := by
  unfold div
  split
  next => rintro stop ⟨⟩; simp [Handled]
  next => exact faults_ok _

theorem faults_rem (a b : Nat) : Faults (rem a b : Outcome ε Nat) := by
  unfold rem
  split
  next => rintro stop ⟨⟩; simp [Handled]
  next => exact faults_ok _

theorem faults_forFrom {lo n : Nat} {body : Nat → α → Outcome ε α} (hbody : ∀ i a, Faults (body i a)) (a : α) :
    Faults (forFrom lo n body a) := by
  induction n generalizing lo a with
  | zero => exact faults_ok a
  | succ n ih => exact (hbody lo a).bind fun b _ => ih b

theorem faults_collectFrom {lo n : Nat} {f : Nat → Outcome ε α} (hf : ∀ i, Faults (f i)) : Faults (collectFrom lo n f) := by
  induction n generalizing lo with
  | zero => exact faults_ok _
  | succ n ih => exact (hf lo).bind fun a _ => ih.bind fun as _ => faults_ok _

/-- A computation without an error: it gets to its end exactly where a condition holds. -/
theorem Faults.checked {c : Prop} [Decidable c] (h : Faults x) (hvalue : c → ∃ a, x = .ok a ∧ V a)
    (hneeds : ∀ a, x = .ok a → c) : Checked [trust c] V x := by
  refine .single hvalue fun hc => ?_
  cases x with
  | ok a => exact absurd (hneeds a rfl) hc
  | error stop => exact ⟨stop, rfl, iff_of_false Bool.false_ne_true (h stop rfl)⟩

end Outcome

/-! ### Stateful computations -/

namespace Exec

open Outcome

variable {σ ε α β : Type}

/-- From every state with `P`, the computation ends by its checks. -/
def Checked (P : σ → Prop) (cs : List Check) (V : α → σ → Prop) (m : Exec σ ε α) : Prop :=
  ∀ s, P s → (m.eval s).1.Checked cs fun a => V a (m.eval s).2

variable {P : σ → Prop} {cs ds : List Check} {V : α → σ → Prop} {W : β → σ → Prop}

theorem checked_lift {x : Outcome ε α} {U : α → Prop} (hx : x.Checked cs U) :
    Checked P cs (fun a s => U a ∧ P s) (lift x : Exec σ ε α) :=
  fun _ hs => hx.mono fun _ ha => ⟨ha, hs⟩

/-- A fact about a value holds before what follows it. -/
theorem Checked.given {m : Exec σ ε α} {U : Prop} (h : U → Checked P cs V m) : Checked (fun s => U ∧ P s) cs V m :=
  fun s hs => h hs.1 s hs.2

theorem Checked.bind {m : Exec σ ε α} {f : α → Exec σ ε β} (hm : Checked P cs V m)
    (hf : ∀ a, Checked (V a) ds W (f a)) : Checked P (cs ++ ds) W (m >>= f) := by
  intro s hs
  have hfirst := hm s hs
  rw [eval_bind]
  rcases hrun : m.eval s with ⟨out, s'⟩
  rw [hrun] at hfirst
  cases out with
  | error stop => exact hfirst.stopped
  | ok a => exact .reached hfirst.1 (hf a s' hfirst.2)

/-- A first part that depends on nothing. -/
theorem Checked.after {m : Exec σ ε α} {f : α → Exec σ ε β} (hm : Checked P [] V m)
    (hf : ∀ a, Checked (V a) ds W (f a)) : Checked P ds W (m >>= f) :=
  hm.bind hf

/-- A last part that depends on nothing. -/
theorem Checked.before {m : Exec σ ε α} {f : α → Exec σ ε β} (hm : Checked P cs V m)
    (hf : ∀ a, Checked (V a) [] W (f a)) : Checked P cs W (m >>= f) := by
  have hboth := hm.bind hf
  rwa [List.append_nil] at hboth

theorem Checked.weaken {P' : σ → Prop} {m : Exec σ ε α} (h : Checked P cs V m) (hP : ∀ s, P' s → P s) : Checked P' cs V m :=
  fun s hs => h s (hP s hs)

/-- A loop: the checks of its turns, one after the other. -/
theorem Checked.loop (Inv : Nat → α → σ → Prop) {checks : Nat → List Check} {lo n : Nat} {body : Nat → α → Exec σ ε α}
    (hbody : ∀ i a, lo ≤ i → i < lo + n → Checked (Inv i a) (checks i) (Inv (i + 1)) (body i a)) (a : α) :
    Checked (Inv lo a) ((List.range' lo n).flatMap checks) (Inv (lo + n)) (forFrom lo n body a) := by
  induction n generalizing lo a with
  | zero => exact fun s hs => checked_ok hs
  | succ n ih =>
    rw [List.range'_succ, List.flatMap_cons]
    refine (hbody lo a (Nat.le_refl lo) (by omega)).bind fun b => ?_
    have hlater : ∀ i c, lo + 1 ≤ i → i < lo + 1 + n → Checked (Inv i c) (checks i) (Inv (i + 1)) (body i c) :=
      fun i c hlo hhi => hbody i c (by omega) (by omega)
    have hrest := ih hlater b
    rwa [Nat.add_assoc, Nat.add_comm 1] at hrest

end Exec
