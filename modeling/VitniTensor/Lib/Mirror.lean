import VitniTensor.Lib.Exec
import Mathlib.Algebra.Group.PUnit

/-!
# Computations with a companion

A computation on a larger state goes along with a plain one when it ends the same, up to the type of errors,
leaves the same in the part of the state that is the plain one's, and adds a fixed amount to a measure of the
other part. It may also be lost on the way, where what the measure comes to is more than the companion can hold.
-/

namespace Exec

variable {σ ρ ε ε' α β M : Type}

/-- What a companion may be lost to when its measure would come to an amount, or to more. -/
structure Loss (M ε : Type) [Add M] where
  short : M → Stop ε → Prop
  more : ∀ {k : M} (l : M) {stop : Stop ε}, short k stop → short (k + l) stop

/-- Outcomes and states that go along: with the companion at `r` before, and the amount `k` of a run. -/
inductive Along [Add M] (Lost : Loss M ε') (conv : ε → ε') (measure : ρ → M) (r : ρ) (k : M) :
    Outcome ε' α × (σ × ρ) → Outcome ε α × σ → Prop where
  | ok {a : α} {s : σ} {r' : ρ} (adds : measure r' = measure r + k) : Along Lost conv measure r k (.ok a, (s, r')) (.ok a, s)
  | error (stop : Stop ε) (s : σ) (r' : ρ) :
      Along Lost conv measure r k (.error (stop.map conv), (s, r')) (.error stop, s)
  | lost {stop : Stop ε'} (lack : Lost.short (measure r + k) stop) (t : σ × ρ) (plain : Outcome ε α × σ) :
      Along Lost conv measure r k (.error stop, t) plain

/-- Whatever the companion, `m` goes along with `m'` and adds `k`. -/
def Tracks [Add M] (Lost : Loss M ε') (conv : ε → ε') (measure : ρ → M) (m : Exec (σ × ρ) ε' α) (m' : Exec σ ε α)
    (k : M) : Prop :=
  ∀ s r, Along Lost conv measure r k (m.eval (s, r)) (m'.eval s)

section Rules

variable [AddCommMonoid M] {Lost : Loss M ε'} {conv : ε → ε'} {measure : ρ → M} {k l : M}

theorem Tracks.pure (a : α) : Tracks Lost conv measure (Pure.pure a : Exec (σ × ρ) ε' α) (Pure.pure a) 0 :=
  fun _ _ => .ok (add_zero _).symm

/-- A plain computation beside a companion that it does not touch. -/
theorem Tracks.plain (m : Exec σ ε α) : Tracks Lost conv measure (mapErr conv (onFst m) : Exec (σ × ρ) ε' α) m 0 := by
  intro s r
  rw [eval_mapErr, eval_onFst]
  rcases hrun : m.eval s with ⟨stop | a, s'⟩
  · cases stop with
    | err e => exact .error (.err e) s' r
    | panic p => exact .error (.panic p) s' r
  · exact .ok (add_zero _).symm

/-- Two parts of a run add up. -/
theorem Along.shift {r r' : ρ} {z : Outcome ε' β × (σ × ρ)} {z' : Outcome ε β × σ} (adds : measure r' = measure r + k)
    (h : Along Lost conv measure r' l z z') : Along Lost conv measure r (k + l) z z' := by
  cases h with
  | ok adds' => exact .ok (by rw [adds', adds, add_assoc])
  | error stop s t => exact .error stop s t
  | lost lack t z' => exact .lost (by rwa [← add_assoc, ← adds]) t z'

theorem Tracks.bind {m : Exec (σ × ρ) ε' α} {m' : Exec σ ε α} {f : α → Exec (σ × ρ) ε' β} {f' : α → Exec σ ε β}
    (first : Tracks Lost conv measure m m' k) (next : ∀ a, Tracks Lost conv measure (f a) (f' a) l) :
    Tracks Lost conv measure (m >>= f) (m' >>= f') (k + l) := by
  intro s r
  have hfirst := first s r
  rw [eval_bind, eval_bind]
  generalize m.eval (s, r) = z at hfirst ⊢
  generalize m'.eval s = z' at hfirst ⊢
  cases hfirst with
  | @ok a s' r' adds => exact (next a s' r').shift adds
  | error stop s' r' => exact .error stop s' r'
  | lost lack t z' => exact .lost (by rw [← add_assoc]; exact Lost.more l lack) t _

/-- A first part that adds nothing. -/
theorem Tracks.behind {m : Exec (σ × ρ) ε' α} {m' : Exec σ ε α} {f : α → Exec (σ × ρ) ε' β} {f' : α → Exec σ ε β}
    (first : Tracks Lost conv measure m m' 0) (next : ∀ a, Tracks Lost conv measure (f a) (f' a) l) :
    Tracks Lost conv measure (m >>= f) (m' >>= f') l := by
  have h := first.bind next
  rwa [zero_add] at h

/-- What follows a plain value counts on it. -/
theorem Tracks.after {x : Outcome ε α} {f : α → Exec (σ × ρ) ε' β} {f' : α → Exec σ ε β}
    (next : ∀ a, x = .ok a → Tracks Lost conv measure (f a) (f' a) l) :
    Tracks Lost conv measure (mapErr conv (onFst (lift x)) >>= f) (lift x >>= f') l := by
  cases x with
  | ok a => exact next a rfl
  | error stop =>
    intro s r
    cases stop with
    | err e => exact .error (.err e) s r
    | panic p => exact .error (.panic p) s r

private theorem lift_bind (x : Outcome ε α) (g : α → Outcome ε β) :
    (lift (x >>= g) : Exec σ ε β) = lift x >>= fun a => lift (g a) := by
  cases x with
  | error stop => rfl
  | ok a => rfl

/-- A plain computation that leaves its state alone; what follows counts on its value. -/
theorem Tracks.liftBind {m : Exec (σ × ρ) ε' α} {x : Outcome ε α} {f : α → Exec (σ × ρ) ε' β} {g : α → Outcome ε β}
    (first : Tracks Lost conv measure m (lift x) k)
    (next : ∀ a, x = .ok a → Tracks Lost conv measure (f a) (lift (g a)) l) :
    Tracks Lost conv measure (m >>= f) (lift (x >>= g)) (k + l) := by
  rw [lift_bind]
  intro s r
  have hfirst := first s r
  rw [eval_lift] at hfirst
  rw [eval_bind, eval_bind, eval_lift]
  generalize m.eval (s, r) = z at hfirst ⊢
  cases x with
  | ok a =>
    cases hfirst with
    | ok adds => exact (next a rfl s _).shift adds
    | lost lack t => exact .lost (by rw [← add_assoc]; exact Lost.more l lack) t _
  | error stop =>
    cases hfirst with
    | error => exact .error stop s _
    | lost lack t => exact .lost (by rw [← add_assoc]; exact Lost.more l lack) t _

theorem Tracks.liftBehind {m : Exec (σ × ρ) ε' α} {x : Outcome ε α} {f : α → Exec (σ × ρ) ε' β} {g : α → Outcome ε β}
    (first : Tracks Lost conv measure m (lift x) 0)
    (next : ∀ a, x = .ok a → Tracks Lost conv measure (f a) (lift (g a)) l) :
    Tracks Lost conv measure (m >>= f) (lift (x >>= g)) l := by
  have h := first.liftBind next
  rwa [zero_add] at h

theorem Tracks.loop {lo n : Nat} {body : Nat → α → Exec (σ × ρ) ε' α} {body' : Nat → α → Exec σ ε α}
    (each : ∀ i a, Tracks Lost conv measure (body i a) (body' i a) k) (a : α) :
    Tracks Lost conv measure (forFrom lo n body a) (forFrom lo n body' a) (n • k) := by
  induction n generalizing lo a with
  | zero =>
    rw [zero_nsmul]
    exact .pure a
  | succ n ih =>
    rw [succ_nsmul']
    exact (each lo a).bind fun b => ih b

theorem Tracks.liftLoop {lo n : Nat} {body : Nat → α → Exec (σ × ρ) ε' α} {body' : Nat → α → Outcome ε α}
    (each : ∀ i a, Tracks Lost conv measure (body i a) (lift (body' i a)) k) (a : α) :
    Tracks Lost conv measure (forFrom lo n body a) (lift (forFrom lo n body' a)) (n • k) := by
  induction n generalizing lo a with
  | zero =>
    rw [zero_nsmul]
    exact .pure a
  | succ n ih =>
    rw [succ_nsmul']
    exact (each lo a).liftBind fun b _ => ih b

/-- A companion that takes a note, and then leaves things to the plain computation. -/
theorem Tracks.noted {Lost : Loss M ε} {note : Exec ρ ε Unit} {x : Outcome ε α}
    (h : ∀ r, wp note (fun _ r' => measure r' = measure r + k) (fun stop _ => Lost.short (measure r + k) stop) r) :
    Tracks Lost id measure (onSnd (note >>= fun _ => Exec.lift x) : Exec (σ × ρ) ε α) (Exec.lift x) k := by
  intro s r
  have hnote := h r
  unfold wp at hnote
  rw [eval_onSnd, eval_bind, eval_lift]
  rcases hrun : note.eval r with ⟨stop | u, r'⟩
  · rw [hrun] at hnote
    exact .lost hnote _ _
  · rw [hrun] at hnote
    rcases x with (e | p) | a
    · exact .error (.err e) s r'
    · exact .error (.panic p) s r'
    · exact .ok hnote

/-- A companion that leaves things to the plain computation at once. -/
theorem Tracks.unnoted (x : Outcome ε α) :
    Tracks Lost conv measure (onSnd (mapErr conv (Exec.lift x)) : Exec (σ × ρ) ε' α) (Exec.lift x) 0 := by
  intro s r
  rcases x with (e | p) | a
  · exact .error (.err e) s r
  · exact .error (.panic p) s r
  · exact .ok (add_zero _).symm

end Rules

/-! ### Companions that are never lost -/

variable {conv : ε → ε'}

/-- Whatever the companion `r`, `m` does what `m'` does. -/
def Mirrors (conv : ε → ε') (m : Exec (σ × ρ) ε' α) (m' : Exec σ ε α) : Prop :=
  ∀ s r, ∃ r', m.eval (s, r) = ((m'.eval s).1.mapError (Stop.map conv), ((m'.eval s).2, r'))

/-- Whatever the state of `m`, its outcome is `x`. -/
def EndsIn (conv : ε → ε') (m : Exec ρ ε' α) (x : Outcome ε α) : Prop :=
  ∀ r, (m.eval r).1 = x.mapError (Stop.map conv)

def Loss.never [Add M] : Loss M ε where
  short _ _ := False
  more _ _ h := h

/-- Nothing is lost, and nothing is counted. -/
abbrev Mirroring (conv : ε → ε') (m : Exec (σ × ρ) ε' α) (m' : Exec σ ε α) : Prop :=
  Tracks .never conv (fun _ => PUnit.unit) m m' PUnit.unit

theorem EndsIn.lift (x : Outcome ε α) : EndsIn id (Exec.lift x : Exec ρ ε α) x := by
  intro r
  rcases x with (e | p) | a <;> rfl

theorem EndsIn.mirroring {m : Exec ρ ε' α} {x : Outcome ε α} (h : EndsIn conv m x) :
    Mirroring conv (onSnd m : Exec (σ × ρ) ε' α) (Exec.lift x) := by
  intro s r
  rw [eval_onSnd, h r, eval_lift]
  cases x with
  | error stop => exact .error stop s _
  | ok a => exact .ok rfl

theorem Tracks.mirrors {m : Exec (σ × ρ) ε' α} {m' : Exec σ ε α} (h : Mirroring conv m m') : Mirrors conv m m' := by
  intro s r
  have hrun := h s r
  rcases hm : m.eval (s, r) with ⟨out, t⟩
  rcases hm' : m'.eval s with ⟨out', t'⟩
  rw [hm, hm'] at hrun
  cases hrun with
  | ok => exact ⟨_, rfl⟩
  | error stop s' r' => exact ⟨r', rfl⟩
  | lost lack => exact lack.elim

/-- A computation without a companion to speak of. -/
def alone (m : Exec (σ × Unit) ε α) : Exec σ ε α :=
  ExceptT.mk fun s => ((m.eval (s, ())).1, (m.eval (s, ())).2.1)

theorem Mirrors.alone {m : Exec (σ × Unit) ε α} {m' : Exec σ ε α} (h : Mirrors id m m') : Exec.alone m = m' := by
  ext s : 1
  obtain ⟨r', hrun⟩ := h s ()
  have hsame : (m'.eval s).1.mapError (Stop.map id) = (m'.eval s).1 := by
    rcases (m'.eval s).1 with (e | p) | a <;> rfl
  change ((m.eval (s, ())).1, (m.eval (s, ())).2.1) = m'.eval s
  rw [hrun, hsame]

end Exec
