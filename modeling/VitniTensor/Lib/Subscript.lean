import VitniTensor.Lib.Outcome

/-!
# Runs for their subscripts

Where the subscripts of a loop nest depend on sizes alone, the nest can be run without the values
that it computes: the run stops at the first subscript that is not inside its array, and ends well
if there is none. The rules below turn such a run into a bound on the sizes.
-/

namespace Subscript

open Outcome

variable {ε : Type}

/-- `a[i]`, for an array of `size` cells. -/
def touch (size i : Nat) : Outcome ε Unit :=
  if i < size then .ok () else panic .outOfRange

/-- `a[n++]`, for an array of `size` cells. -/
def push (size n : Nat) : Outcome ε Nat :=
  if n < size then .ok (n + 1) else panic .outOfRange

/-- `for i in 0..n { f(i) }`. -/
def sweep (n : Nat) (f : Nat → Outcome ε Unit) : Outcome ε Unit :=
  forRange n (fun i _ => f i) ()

/-- `0..n` in whole blocks of `lanes`, and then the rest. -/
def sweepLanes (lanes n : Nat) (f : Nat → Outcome ε Unit) : Outcome ε Unit := do
  let full := n - n % lanes
  sweep (full / lanes) fun b => sweep lanes fun j => f (b * lanes + j)
  sweep (n - full) fun i => f (full + i)

@[simp] theorem touch_ok {size i : Nat} : (touch size i : Outcome ε Unit) = .ok () ↔ i < size := by
  unfold touch
  split <;> simp_all

theorem push_of_lt {size n : Nat} (h : n < size) : (push size n : Outcome ε Nat) = .ok (n + 1) :=
  if_pos h

/-- One run after the other. -/
@[simp] theorem then_ok {x y : Outcome ε Unit} :
    (x >>= fun _ => y) = .ok () ↔ x = .ok () ∧ y = .ok () := by
  cases x <;> simp

@[simp] theorem sweep_ok {n : Nat} {f : Nat → Outcome ε Unit} :
    sweep n f = .ok () ↔ ∀ i < n, f i = .ok () := by
  unfold sweep
  constructor
  · intro h i hi
    obtain ⟨_, _, hrun⟩ := forFrom_each h hi
    rw [Nat.zero_add] at hrun
    exact hrun
  · intro h
    obtain ⟨_, hrun, -⟩ := forFrom_ok (fun _ _ => True) trivial fun i _ _ hi _ =>
      ⟨(), h i (by rw [Nat.zero_add] at hi; exact hi), trivial⟩
    exact hrun

/-- The order of the lanes does not matter. -/
theorem sweepLanes_ok {lanes n : Nat} (hlanes : 0 < lanes) {f : Nat → Outcome ε Unit} :
    sweepLanes lanes n f = .ok () ↔ ∀ i < n, f i = .ok () := by
  have hfull : (n - n % lanes) / lanes * lanes = n - n % lanes := by
    rw [← Nat.div_mul_self_eq_mod_sub_self, Nat.mul_div_cancel _ hlanes]
  have hle : n - n % lanes ≤ n := Nat.sub_le _ _
  unfold sweepLanes
  simp only [then_ok, sweep_ok]
  constructor
  · rintro ⟨hblocks, hrest⟩ i hi
    by_cases hin : i < n - n % lanes
    · have hblock : i / lanes < (n - n % lanes) / lanes := by
        rw [Nat.div_lt_iff_lt_mul hlanes, hfull]
        exact hin
      have hcell := hblocks (i / lanes) hblock (i % lanes) (Nat.mod_lt i hlanes)
      rw [Nat.mul_comm, Nat.div_add_mod] at hcell
      exact hcell
    · have hcell := hrest (i - (n - n % lanes)) (by omega)
      rw [Nat.add_sub_cancel' (by omega)] at hcell
      exact hcell
  · intro h
    refine ⟨fun b hb j hj => h _ ?_, fun i hi => h _ (by omega)⟩
    have hnext : (b + 1) * lanes ≤ (n - n % lanes) / lanes * lanes := Nat.mul_le_mul_right _ hb
    rw [hfull, Nat.succ_mul] at hnext
    omega

end Subscript
