import VitniTensor.Lib.Exec

/-!
# Computations that emit

The state is a list that grows at its end. A computation emits the same list whatever there is
already, and ends with the same outcome. What would come after a stop is not emitted, so what a loop
emits are the lists of its iterations, up to the first one that stops.
-/

namespace Exec

variable {α β γ ε : Type}

/-- At the end of the list. -/
def emit (out : List α) : Exec (List α) ε Unit :=
  update (· ++ out)

/-- `m` ends with `x`, and has emitted `out`. -/
def Emits (m : Exec (List α) ε β) (x : Outcome ε β) (out : List α) : Prop :=
  ∀ e, m.eval e = (x, e ++ out)

namespace Emits

variable {m : Exec (List α) ε β} {x : Outcome ε β} {out : List α}

theorem of_pure (b : β) : Emits (pure b : Exec (List α) ε β) (.ok b) [] :=
  fun e => by rw [eval_pure, List.append_nil]

theorem of_lift (x : Outcome ε β) : Emits (lift x : Exec (List α) ε β) x [] :=
  fun e => by rw [eval_lift, List.append_nil]

theorem of_emit (out : List α) : Emits (emit out : Exec (List α) ε Unit) (.ok ()) out :=
  fun e => eval_update (· ++ out) e

/-- The run from an empty list tells what is emitted. -/
theorem eval_nil (h : Emits m x out) : m.eval [] = (x, out) :=
  h []

/-- One after the other. -/
theorem bind {f : β → Exec (List α) ε γ} {b : β} {y : Outcome ε γ} {rest : List α} (h : Emits m (.ok b) out)
    (h' : Emits (f b) y rest) : Emits (m >>= f) y (out ++ rest) := by
  intro e
  rw [eval_bind_ok (h e), h' (e ++ out), List.append_assoc]

/-- The second is not reached. -/
theorem stop {f : β → Exec (List α) ε γ} {s : Stop ε} (h : Emits m (.error s) out) : Emits (m >>= f) (.error s) out := by
  intro e
  rw [eval_bind, h e]

/-- What a loop emits. -/
theorem loop {lo n : Nat} {body : Nat → Exec (List α) ε Unit} {x : Nat → Outcome ε Unit} {out : Nat → List α}
    (hbody : ∀ i, lo ≤ i → i < lo + n → Emits (body i) (x i) (out i)) :
    ∃ y all, Emits (forFrom lo n (fun i _ => body i) ()) y all ∧
      (y = .ok () ↔ ∀ i, lo ≤ i → i < lo + n → x i = .ok ()) ∧
      ∀ a, a ∈ all ↔ ∃ i, lo ≤ i ∧ i < lo + n ∧ (∀ j, lo ≤ j → j < i → x j = .ok ()) ∧ a ∈ out i := by
  induction n generalizing lo with
  | zero =>
    refine ⟨.ok (), [], of_pure (), iff_of_true rfl (fun i hlo hi => by omega), fun a => ?_⟩
    exact iff_of_false List.not_mem_nil fun ⟨i, hlo, hi, _⟩ => by omega
  | succ n ih =>
    have hfirst := hbody lo (Nat.le_refl lo) (by omega)
    obtain ⟨y, all, hall, hok, hmem⟩ := @ih (lo + 1) fun i hlo hi => hbody i (by omega) (by omega)
    cases hx : x lo with
    | error s =>
      rw [hx] at hfirst
      refine ⟨.error s, out lo, hfirst.stop, ?_, fun a => ?_⟩
      · refine iff_of_false (fun h => nomatch h) fun h => ?_
        rw [h lo (Nat.le_refl lo) (by omega)] at hx
        cases hx
      · constructor
        · exact fun ha => ⟨lo, Nat.le_refl lo, by omega, fun j hlo hj => by omega, ha⟩
        · rintro ⟨i, hlo, hi, hbefore, ha⟩
          -- no iteration after the one that stopped
          rcases Nat.eq_or_lt_of_le hlo with rfl | hlater
          · exact ha
          · rw [hbefore lo (Nat.le_refl lo) hlater] at hx
            cases hx
    | ok u =>
      rw [hx] at hfirst
      refine ⟨y, out lo ++ all, hfirst.bind hall, ?_, fun a => ?_⟩
      · rw [hok]
        constructor
        · intro h i hlo hi
          rcases Nat.eq_or_lt_of_le hlo with rfl | hlater
          · exact hx
          · exact h i hlater (by omega)
        · exact fun h i hlo hi => h i (by omega) (by omega)
      · rw [List.mem_append, hmem]
        constructor
        · rintro (ha | ⟨i, hlo, hi, hbefore, ha⟩)
          · exact ⟨lo, Nat.le_refl lo, by omega, fun j hlo hj => by omega, ha⟩
          · refine ⟨i, by omega, by omega, fun j hj hji => ?_, ha⟩
            rcases Nat.eq_or_lt_of_le hj with rfl | hlater
            · exact hx
            · exact hbefore j hlater hji
        · rintro ⟨i, hlo, hi, hbefore, ha⟩
          rcases Nat.eq_or_lt_of_le hlo with rfl | hlater
          · exact .inl ha
          · exact .inr ⟨i, hlater, by omega, fun j hj hji => hbefore j (by omega) hji, ha⟩

end Emits

/-! ### Runs over a list -/

/-- `for (i, x) in xs.iter().enumerate() { step(x, i) }` -/
def feed (step : β → Nat → Exec (List α) ε Unit) (xs : List β) : Exec (List α) ε Unit :=
  forRange xs.length (fun i _ => do
    let x ← lift (Outcome.index xs i)
    step x i) ()

/-- What a run emits. -/
theorem mem_feed {step : β → Nat → Exec (List α) ε Unit} {x : β → Nat → Outcome ε Unit} {out : β → Nat → List α}
    (hstep : ∀ b i, Emits (step b i) (x b i) (out b i)) (xs : List β) (a : α) :
    a ∈ ((feed step xs).eval []).2 ↔ ∃ i b, xs[i]? = some b ∧
      (∀ j < i, ∀ c, xs[j]? = some c → x c j = .ok ()) ∧ a ∈ out b i := by
  have hbody : ∀ i, 0 ≤ i → i < 0 + xs.length → Emits (lift (Outcome.index xs i) >>= fun b => step b i)
      (xs[i]?.elim (.ok ()) fun b => x b i) (xs[i]?.elim [] fun b => out b i) := by
    intro i _ hi
    rw [Nat.zero_add] at hi
    have hget := List.getElem?_eq_getElem hi
    rw [Outcome.index_of_lt hi, hget]
    exact (Emits.of_lift (.ok xs[i])).bind (hstep xs[i] i)
  obtain ⟨y, all, hall, -, hmem⟩ := Emits.loop hbody
  unfold feed forRange
  rw [hall [], List.nil_append, hmem]
  constructor
  · rintro ⟨i, -, hi, hbefore, ha⟩
    have hget := List.getElem?_eq_getElem (show i < xs.length by omega)
    rw [hget] at ha
    refine ⟨i, xs[i], hget, fun j hj c hc => ?_, ha⟩
    have hj' := hbefore j (Nat.zero_le j) hj
    rw [hc] at hj'
    exact hj'
  · rintro ⟨i, b, hget, hbefore, ha⟩
    have hi := (List.getElem?_eq_some_iff.mp hget).1
    refine ⟨i, Nat.zero_le i, by omega, fun j _ hj => ?_, by rw [hget]; exact ha⟩
    have hgetj := List.getElem?_eq_getElem (show j < xs.length by omega)
    rw [hgetj]
    exact hbefore j hj _ hgetj

theorem isOk_iff {x : Outcome ε β} : x.isOk = true ↔ ∃ b, x = .ok b := by
  cases x with
  | ok b => exact iff_of_true rfl ⟨b, rfl⟩
  | error s => exact iff_of_false (fun h => nomatch h) (fun ⟨_, h⟩ => nomatch h)

/-- The longest front of which every member has the property. -/
theorem lt_takeWhile {p : β → Bool} {xs : List β} {i : Nat} :
    i < (xs.takeWhile p).length ↔ i < xs.length ∧ ∀ j ≤ i, ∀ b, xs[j]? = some b → p b = true := by
  induction xs generalizing i with
  | nil => simp
  | cons x xs ih =>
    rw [List.takeWhile_cons]
    by_cases hx : p x = true
    · rw [if_pos hx, List.length_cons, List.length_cons]
      cases i with
      | zero =>
        refine iff_of_true (by omega) ⟨by omega, fun j hj b hb => ?_⟩
        rw [Nat.le_zero.mp hj, List.getElem?_cons_zero] at hb
        exact Option.some.inj hb ▸ hx
      | succ i =>
        rw [Nat.add_lt_add_iff_right, Nat.add_lt_add_iff_right, ih]
        refine and_congr_right fun _ => ⟨fun h j hj b hb => ?_, fun h j hj b hb => ?_⟩
        · cases j with
          | zero => exact Option.some.inj hb ▸ hx
          | succ j => exact h j (by omega) b hb
        · exact h (j + 1) (by omega) b hb
    · rw [if_neg hx]
      exact iff_of_false (Nat.not_lt_zero i) fun h => hx (h.2 0 (Nat.zero_le i) x rfl)

end Exec
