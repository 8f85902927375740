import VitniTensor.Lib.Outcome
import Mathlib.Algebra.BigOperators.Fin
import Mathlib.Algebra.BigOperators.Intervals
import Mathlib.Logic.Equiv.Fin.Basic

/-!
# Counted loops

`for i in 0..n { s = body(i, s) }` where the body never stops, and its rules.
-/

namespace VitniTensor

variable {σ : Type}

/-- The state after `n` turns. -/
def loop : (n : Nat) → (Nat → σ → σ) → σ → σ
  | 0, _, s => s
  | n + 1, body, s => body n (loop n body s)

namespace Loop

theorem loop_congr {n : Nat} {f g : Nat → σ → σ} {s : σ} (hbody : ∀ i < n, ∀ s, f i s = g i s) :
    loop n f s = loop n g s := by
  induction n with
  | zero => rfl
  | succ n ih => rw [loop, loop, ih fun i hi => hbody i (by omega), hbody n (Nat.lt_succ_self n)]

/-- What holds after every turn, if it holds before the first and each turn keeps it. -/
theorem loop_invariant {n : Nat} {f : Nat → σ → σ} {s : σ} {inv : Nat → σ → Prop} (hfirst : inv 0 s)
    (hstep : ∀ i < n, ∀ s, inv i s → inv (i + 1) (f i s)) : inv n (loop n f s) := by
  induction n with
  | zero => exact hfirst
  | succ n ih => exact hstep n (Nat.lt_succ_self n) _ (ih fun i hi => hstep i (by omega))

/-- Related bodies keep the states of two loops related. -/
theorem loop_related {τ : Type} {n : Nat} {f : Nat → σ → σ} {g : Nat → τ → τ} {s : σ} {t : τ} {rel : σ → τ → Prop}
    (hfirst : rel s t) (hstep : ∀ i < n, ∀ s t, rel s t → rel (f i s) (g i t)) :
    rel (loop n f s) (loop n g t) := by
  induction n with
  | zero => exact hfirst
  | succ n ih => exact hstep n (Nat.lt_succ_self n) _ _ (ih fun i hi => hstep i (by omega))

/-- A loop that accumulates terms computes their sum. -/
theorem loop_add {M : Type} [AddCommMonoid M] (n : Nat) (f : Nat → M) (a : M) :
    loop n (fun i acc => acc + f i) a = a + ∑ i ∈ Finset.range n, f i := by
  induction n with
  | zero => simp [loop]
  | succ n ih => rw [loop, ih, Finset.sum_range_succ, add_assoc]

/-- A sum over `m` groups of `k` terms. -/
theorem sum_groups {M : Type} [AddCommMonoid M] (m k : Nat) (f : Nat → M) :
    ∑ g ∈ Finset.range m, ∑ i ∈ Finset.range k, f (k * g + i) = ∑ i ∈ Finset.range (m * k), f i := by
  induction m with
  | zero => simp
  | succ m ih => rw [Finset.sum_range_succ, ih, Nat.succ_mul, Finset.sum_range_add, Nat.mul_comm k m]

/-- The same over a product of index types: place `b + n * a` is place `b` of group `a`. -/
theorem sum_fin_groups {M : Type} [AddCommMonoid M] (m n : Nat) (f : Fin (m * n) → M) :
    ∑ i, f i = ∑ a : Fin m, ∑ b : Fin n, f (finProdFinEquiv (a, b)) := by
  rw [← finProdFinEquiv.sum_comp, Fintype.sum_prod_type]

/-! ### Loops that may stop -/

/-- A run that goes through is the loop of what its turns compute. -/
theorem forRange_eq_loop {ε : Type} {n : Nat} {body : Nat → σ → Outcome ε σ} {f : Nat → σ → σ} {s t : σ}
    (hbody : ∀ i < n, ∀ s t, body i s = .ok t → t = f i s) (hrun : forRange n body s = .ok t) :
    t = loop n f s := by
  induction n generalizing t with
  | zero =>
    cases hrun
    rfl
  | succ n ih =>
    rw [forRange, forFrom_succ_last] at hrun
    obtain ⟨u, hu, hlast⟩ := Outcome.bind_eq_ok.mp hrun
    rw [Nat.zero_add] at hlast
    rw [hbody n (Nat.lt_succ_self n) u t hlast, ih (fun i hi => hbody i (by omega)) hu, loop]

/-- What a run adds to a measure of the state is what its turns add. -/
theorem foldlM_adds {ε α M : Type} [AddCommMonoid M] (measure : σ → M) (term : α → M) {body : σ → α → Outcome ε σ}
    (hbody : ∀ s a s', body s a = .ok s' → measure s' = measure s + term a) {l : List α} {s t : σ}
    (hrun : l.foldlM body s = .ok t) : measure t = measure s + (l.map term).sum := by
  induction l generalizing s with
  | nil =>
    cases hrun
    simp
  | cons a l ih =>
    obtain ⟨s', hs', hrest⟩ := Outcome.bind_eq_ok.mp hrun
    rw [ih hrest, hbody s a s' hs', List.map_cons, List.sum_cons, add_assoc]

theorem foldlM_finRange_adds {ε M : Type} [AddCommMonoid M] {n : Nat} (measure : σ → M) (term : Fin n → M)
    {body : σ → Fin n → Outcome ε σ} (hbody : ∀ s i s', body s i = .ok s' → measure s' = measure s + term i)
    {s t : σ} (hrun : (List.finRange n).foldlM body s = .ok t) : measure t = measure s + ∑ i, term i := by
  rw [foldlM_adds measure term hbody hrun, Fin.sum_univ_def]

end Loop

end VitniTensor
