import Mathlib.Logic.Function.Basic
import Mathlib.Data.List.Basic

/-!
# Stores into an array

An array is a function from its cells. Stores go in one after another; where all stores to a cell
agree on its value, their order is of no account.
-/

namespace VitniTensor

variable {ι α : Type} [DecidableEq ι]

/-- The array after the stores. -/
def scatter (a : ι → α) (stores : List (ι × α)) : ι → α :=
  stores.foldl (fun a s => Function.update a s.1 s.2) a

namespace Scatter

variable {a : ι → α} {stores : List (ι × α)} {i : ι}

theorem scatter_cons (s : ι × α) : scatter a (s :: stores) = scatter (Function.update a s.1 s.2) stores := rfl

/-- A cell that nothing is stored to. -/
theorem scatter_outside (hout : ∀ s ∈ stores, s.1 ≠ i) : scatter a stores i = a i := by
  induction stores generalizing a with
  | nil => rfl
  | cons s stores ih =>
    rw [scatter_cons, ih fun t ht => hout t (List.mem_cons_of_mem _ ht),
      Function.update_of_ne (hout s List.mem_cons_self).symm]

/-- A cell that one value is stored to. -/
theorem scatter_stored {v : α} (hstored : ∃ s ∈ stores, s.1 = i) (hsame : ∀ s ∈ stores, s.1 = i → s.2 = v) :
    scatter a stores i = v := by
  induction stores generalizing a with
  | nil =>
    obtain ⟨s, hs, -⟩ := hstored
    exact absurd hs List.not_mem_nil
  | cons s stores ih =>
    rw [scatter_cons]
    by_cases hlater : ∃ t ∈ stores, t.1 = i
    · exact ih hlater fun t ht => hsame t (List.mem_cons_of_mem _ ht)
    · obtain ⟨t, ht, hcell⟩ := hstored
      have hhere : s.1 = i := by
        rcases List.mem_cons.mp ht with rfl | ht
        · exact hcell
        · exact absurd ⟨t, ht, hcell⟩ hlater
      rw [scatter_outside fun t ht hcell => hlater ⟨t, ht, hcell⟩, ← hhere, Function.update_self]
      exact hsame s List.mem_cons_self hhere

end Scatter

/-! ### A block of threads -/

/-- `for (i = tid; i < size; i += threads)`. -/
def strided (threads size tid : Nat) : List Nat :=
  (List.range ((size + threads - 1 - tid) / threads)).map fun k => tid + threads * k

/-- The stores of all threads of a block that share a loop over `size` turns. -/
def stagedStores (threads size : Nat) (body : Nat → List (ι × α)) : List (ι × α) :=
  (List.range threads).flatMap fun tid => (strided threads size tid).flatMap body

namespace Scatter

/-- The threads of a block share the turns of a loop out among them. -/
theorem mem_strided {threads size tid i : Nat} (htid : tid < threads) :
    i ∈ strided threads size tid ↔ i < size ∧ i % threads = tid := by
  have hturns : ∀ k, k < (size + threads - 1 - tid) / threads ↔ tid + threads * k < size := by
    intro k
    rw [Nat.lt_div_iff_mul_lt (by omega), Nat.mul_comm]
    omega
  unfold strided
  rw [List.mem_map]
  constructor
  · rintro ⟨k, hk, rfl⟩
    rw [Nat.add_mul_mod_self_left, Nat.mod_eq_of_lt htid]
    exact ⟨(hturns k).mp (List.mem_range.mp hk), rfl⟩
  · rintro ⟨hi, hmod⟩
    have hsplit := Nat.mod_add_div i threads
    rw [hmod] at hsplit
    exact ⟨i / threads, List.mem_range.mpr ((hturns _).mpr (by omega)), hsplit⟩

omit [DecidableEq ι] in
theorem mem_stagedStores {threads size : Nat} {body : Nat → List (ι × α)} {s : ι × α} (hthreads : 0 < threads) :
    s ∈ stagedStores threads size body ↔ ∃ i < size, s ∈ body i := by
  unfold stagedStores
  simp only [List.mem_flatMap, List.mem_range]
  constructor
  · rintro ⟨tid, htid, i, hi, hs⟩
    exact ⟨i, ((mem_strided htid).mp hi).1, hs⟩
  · rintro ⟨i, hi, hs⟩
    have htid := Nat.mod_lt i hthreads
    exact ⟨i % threads, htid, i, (mem_strided htid).mpr ⟨hi, rfl⟩, hs⟩

/-- A staged array: turn `i` is the only one that stores to its cell. -/
theorem staged_cell {threads size i : Nat} {a : ι → α} {body : Nat → List (ι × α)} {c : ι} {v : α} (hthreads : 0 < threads)
    (hi : i < size) (hself : (c, v) ∈ body i) (hsame : ∀ j < size, ∀ w, (c, w) ∈ body j → w = v) :
    scatter a (stagedStores threads size body) c = v := by
  refine scatter_stored ⟨(c, v), (mem_stagedStores hthreads).mpr ⟨i, hi, hself⟩, rfl⟩ ?_
  rintro ⟨c', w⟩ hs rfl
  obtain ⟨j, hj, hs⟩ := (mem_stagedStores hthreads).mp hs
  exact hsame j hj w hs

/-- An array with a cell for each turn. -/
theorem staged_self {threads size i : Nat} {a : Nat → α} (value : Nat → α) (hthreads : 0 < threads) (hi : i < size) :
    scatter a (stagedStores threads size fun i => [(i, value i)]) i = value i := by
  refine staged_cell hthreads hi (List.mem_singleton.mpr rfl) fun j _ w hw => ?_
  obtain ⟨rfl, rfl⟩ := Prod.mk.inj (List.mem_singleton.mp hw)
  rfl

/-- An array of rows of `n` cells, staged by its flat index. -/
theorem staged_rows {threads m n r e : Nat} {a : Nat × Nat → α} (value : Nat → Nat → α) (hthreads : 0 < threads)
    (hr : r < m) (he : e < n) :
    scatter a (stagedStores threads (m * n) fun i => [((i / n, i % n), value (i / n) (i % n))]) (r, e) = value r e := by
  have hpos : 0 < n := by omega
  have hdiv : (r * n + e) / n = r := by
    rw [Nat.add_comm, Nat.add_mul_div_right _ _ hpos, Nat.div_eq_of_lt he, Nat.zero_add]
  have hmod : (r * n + e) % n = e := by
    rw [Nat.add_comm, Nat.add_mul_mod_self_right, Nat.mod_eq_of_lt he]
  have hlt : r * n + e < m * n := by
    have hrow := Nat.mul_le_mul_right n (Nat.succ_le_of_lt hr)
    rw [Nat.succ_mul] at hrow
    omega
  refine staged_cell hthreads hlt (List.mem_singleton.mpr (by rw [hdiv, hmod])) fun j _ w hw => ?_
  obtain ⟨hcell, rfl⟩ := Prod.mk.inj (List.mem_singleton.mp hw)
  obtain ⟨rfl, rfl⟩ := Prod.mk.inj hcell
  rfl

end Scatter

end VitniTensor
