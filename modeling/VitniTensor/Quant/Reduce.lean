import VitniTensor.Error
import VitniTensor.F32

/-!
# The canonical reduction

Element `i` of a chunk goes to lane `i % 8`, each lane adds up in increasing order, and a
fixed pairwise tree combines the lanes of a chunk and then the chunks.
-/

namespace VitniTensor

open Outcome

variable {F : Type} [F32 F]

/-- `CANON_LANES`. -/
abbrev canonLanes : Nat := 8

/-- `CANON_CHUNK`. -/
abbrev canonChunk : Nat := 8192

/-! ### The fixed tree -/

/-- The value of cell `t` of the next level, read from the first `len` cells. -/
def pairAt (len t : Nat) (part : List F) : Res F :=
  if 2 * t + 1 < len then do
    let a ← index part (2 * t)
    let b ← index part (2 * t + 1)
    pure (F32.add a b)
  else index part (2 * t)

/-- One level of the tree, in place. -/
def treeLevel (len : Nat) (part : List F) : Res (List F) :=
  forRange ((len + 1) / 2) (fun t part => do
    let v ← pairAt len t part
    store part t v) part

/-- `while len > 1`; every level halves `len`, so `len` levels are enough. -/
def treeLevels : (levels len : Nat) → List F → Res (List F)
  | 0, _, part => .ok part
  | levels + 1, len, part =>
    if len > 1 then do
      let part ← treeLevel len part
      treeLevels levels ((len + 1) / 2) part
    else .ok part

def fixedTree (part : List F) : Res F :=
  if part.length = 0 then .ok F32.zero
  else do
    let part ← treeLevels part.length part.length part
    index part 0

/-- Combine chunk sums that were computed in any order. -/
def canonicalCombine (chunkSums : List F) : Res F :=
  fixedTree chunkSums

/-! ### Lanes and chunks -/

/-- `lanes[j] += p`. -/
def addLane (lanes : List F) (j : Nat) (p : F) : Res (List F) := do
  let a ← index lanes j
  store lanes j (F32.add a p)

/-- `lanes[j] += term(i)`. -/
def addTerm (term : Nat → Res F) (j i : Nat) (lanes : List F) : Res (List F) := do
  let p ← term i
  addLane lanes j p

/-- One turn of the hot loop: a term for every lane. -/
def addGroup (term : Nat → Res F) (g : Nat) (lanes : List F) : Res (List F) :=
  forRange canonLanes (fun j => addTerm term j (canonLanes * g + j)) lanes

/-- The two loops over `n` terms: whole groups of lanes, then the tail. -/
def addLanes (n : Nat) (term : Nat → Res F) (lanes : List F) : Res (List F) := do
  let lanes ← forRange ((n - n % canonLanes) / canonLanes) (addGroup term) lanes
  forFrom (n - n % canonLanes) (n % canonLanes) (fun i => addTerm term (i % canonLanes) i) lanes

/-- `[0.0f32; CANON_LANES]`. -/
def zeroLanes : List F := List.replicate canonLanes F32.zero

@[simp] theorem length_zeroLanes : (zeroLanes : List F).length = canonLanes :=
  List.length_replicate

/-- One product of a dot product. -/
def productAt (x w : List F) (i : Nat) : Res F := do
  let a ← index x i
  let b ← index w i
  pure (F32.mul a b)

def canonicalChunk (x w : List F) : Res F := do
  let lanes ← addLanes x.length (productAt x w) zeroLanes
  fixedTree lanes

def canonicalChunkSum (x : List F) : Res F := do
  let lanes ← addLanes x.length (index x) zeroLanes
  fixedTree lanes

/-- The frame of `canonical_dot` and `canonical_sum`: `chunk s e` reduces elements `s..e`. -/
def inChunks (n : Nat) (chunk : Nat → Nat → Res F) : Res F :=
  if n = 0 then .ok F32.zero
  else if n ≤ canonChunk then chunk 0 n
  else do
    let sums ← collectRange ((n + canonChunk - 1) / canonChunk) fun c =>
      chunk (c * canonChunk) (min (c * canonChunk + canonChunk) n)
    fixedTree sums

def canonicalDot (x w : List F) (n : Nat) : Res F :=
  inChunks n fun s e => do
    let xs ← slice x s e
    let ws ← slice w s e
    canonicalChunk xs ws

def canonicalSum (x : List F) (n : Nat) : Res F :=
  inChunks n fun s e => do
    let xs ← slice x s e
    canonicalChunkSum xs

/-! ### The reduction never stops -/

private theorem pairAt_ok {len t : Nat} {part : List F} (hlen : len ≤ part.length)
    (ht : 2 * t < len) : ∃ v, pairAt len t part = .ok v := by
  unfold pairAt
  split
  next hpair =>
    rw [index_of_lt (by omega), ok_bind, index_of_lt (by omega), ok_bind]
    exact ⟨_, rfl⟩
  next hodd =>
    exact ⟨_, index_of_lt (by omega)⟩

private theorem treeLevel_ok {len : Nat} {part : List F} (hlen : len ≤ part.length) :
    ∃ part', treeLevel len part = .ok part' ∧ part'.length = part.length := by
  refine forFrom_ok (fun _ (p : List F) => p.length = part.length) rfl fun t p _ hlt hp => ?_
  obtain ⟨v, hv⟩ := @pairAt_ok F _ len t p (by omega) (by omega)
  refine ⟨p.set t v, ?_, by rw [List.length_set, hp]⟩
  rw [hv, ok_bind, store_of_lt (by omega)]

private theorem treeLevels_ok (levels : Nat) {len : Nat} {part : List F} (hlen : len ≤ part.length) :
    ∃ part', treeLevels levels len part = .ok part' ∧ part'.length = part.length := by
  induction levels generalizing len part with
  | zero => exact ⟨part, rfl, rfl⟩
  | succ levels ih =>
    unfold treeLevels
    split
    next hmore =>
      obtain ⟨next, hnext, hsame⟩ := treeLevel_ok hlen
      obtain ⟨last, hlast, hlength⟩ := @ih ((len + 1) / 2) next (by omega)
      refine ⟨last, ?_, by rw [hlength, hsame]⟩
      rw [hnext, ok_bind, hlast]
    next hdone => exact ⟨part, rfl, rfl⟩

theorem fixedTree_ok (part : List F) : ∃ v, fixedTree part = .ok v := by
  unfold fixedTree
  split
  next hempty => exact ⟨_, rfl⟩
  next hsome =>
    obtain ⟨last, hlast, hlength⟩ := treeLevels_ok part.length (Nat.le_refl part.length)
    rw [hlast, ok_bind]
    exact ⟨_, index_of_lt (by omega)⟩

private theorem addTerm_ok {term : Nat → Res F} {lanes : List F} {j i : Nat}
    (hlanes : lanes.length = canonLanes) (hj : j < canonLanes) (hterm : ∃ p, term i = .ok p) :
    ∃ lanes', addTerm term j i lanes = .ok lanes' ∧ lanes'.length = canonLanes := by
  obtain ⟨p, hp⟩ := hterm
  unfold addTerm addLane
  rw [hp, ok_bind, index_of_lt (by omega), ok_bind, store_of_lt (by omega)]
  exact ⟨_, rfl, by rw [List.length_set, hlanes]⟩

theorem addLanes_ok {n : Nat} {term : Nat → Res F} {lanes : List F}
    (hlanes : lanes.length = canonLanes) (hterm : ∀ i < n, ∃ p, term i = .ok p) :
    ∃ lanes', addLanes n term lanes = .ok lanes' ∧ lanes'.length = canonLanes := by
  have hgroups : ∃ lanes', forRange ((n - n % canonLanes) / canonLanes) (addGroup term) lanes =
      .ok lanes' ∧ lanes'.length = canonLanes := by
    refine forFrom_ok (fun _ (l : List F) => l.length = canonLanes) hlanes fun g l _ hg hl => ?_
    refine forFrom_ok (fun _ (l : List F) => l.length = canonLanes) hl fun j l' _ hj hl' => ?_
    refine addTerm_ok hl' (by omega) (hterm _ ?_)
    -- a lane of a whole group
    unfold canonLanes at *
    omega
  obtain ⟨groups, hrun, hlength⟩ := hgroups
  unfold addLanes
  rw [hrun, ok_bind]
  refine forFrom_ok (fun _ (l : List F) => l.length = canonLanes) hlength fun i l _ hi hl => ?_
  exact addTerm_ok hl (Nat.mod_lt _ (by decide)) (hterm i (by
    have := Nat.mod_le n canonLanes
    omega))

theorem productAt_ok {x w : List F} {i : Nat} (hx : i < x.length) (hw : i < w.length) :
    ∃ p, productAt x w i = .ok p := by
  unfold productAt
  rw [index_of_lt hx, ok_bind, index_of_lt hw, ok_bind]
  exact ⟨_, rfl⟩

theorem canonicalChunk_ok {x w : List F} (h : x.length ≤ w.length) :
    ∃ v, canonicalChunk x w = .ok v := by
  have hterm : ∀ i < x.length, ∃ p, productAt x w i = .ok p :=
    fun i hi => productAt_ok hi (Nat.lt_of_lt_of_le hi h)
  obtain ⟨lanes, hlanes, -⟩ := addLanes_ok length_zeroLanes hterm
  unfold canonicalChunk
  rw [hlanes, ok_bind]
  exact fixedTree_ok lanes

theorem canonicalChunkSum_ok (x : List F) : ∃ v, canonicalChunkSum x = .ok v := by
  have hterm : ∀ i < x.length, ∃ p, (index x i : Res F) = .ok p :=
    fun i hi => ⟨_, index_of_lt hi⟩
  obtain ⟨lanes, hlanes, -⟩ := addLanes_ok length_zeroLanes hterm
  unfold canonicalChunkSum
  rw [hlanes, ok_bind]
  exact fixedTree_ok lanes

theorem inChunks_ok {n : Nat} {chunk : Nat → Nat → Res F}
    (hchunk : ∀ s e, s ≤ e → e ≤ n → ∃ v, chunk s e = .ok v) : ∃ v, inChunks n chunk = .ok v := by
  unfold inChunks
  split
  next hzero => exact ⟨_, rfl⟩
  next hpos =>
    split
    next hone => exact hchunk 0 n (Nat.zero_le n) (Nat.le_refl n)
    next hmany =>
      have heach : ∀ c < (n + canonChunk - 1) / canonChunk, ∃ v,
          chunk (c * canonChunk) (min (c * canonChunk + canonChunk) n) = .ok v := by
        intro c hc
        refine hchunk _ _ ?_ (Nat.min_le_right _ _)
        unfold canonChunk at *
        omega
      obtain ⟨sums, hsums, -⟩ := collectRange_ok heach
      rw [hsums, ok_bind]
      exact fixedTree_ok sums

theorem canonicalDot_ok {x w : List F} {n : Nat} (hx : n ≤ x.length) (hw : n ≤ w.length) :
    ∃ v, canonicalDot x w n = .ok v := by
  refine inChunks_ok fun s e hse hen => ?_
  rw [slice_of_le hse (by omega), ok_bind, slice_of_le hse (by omega), ok_bind]
  refine canonicalChunk_ok ?_
  simp only [List.length_take, List.length_drop]
  omega

/-- The value of a dot product that is in range. -/
def dotValue (x w : List F) (n : Nat) : F :=
  match canonicalDot x w n with
  | .ok v => v
  | .error _ => F32.zero

theorem canonicalDot_eq {x w : List F} {n : Nat} (hx : n ≤ x.length) (hw : n ≤ w.length) :
    canonicalDot x w n = .ok (dotValue x w n) := by
  obtain ⟨v, hv⟩ := canonicalDot_ok hx hw
  unfold dotValue
  rw [hv]

theorem canonicalSum_ok {x : List F} {n : Nat} (hx : n ≤ x.length) :
    ∃ v, canonicalSum x n = .ok v := by
  refine inChunks_ok fun s e hse hen => ?_
  rw [slice_of_le hse (by omega), ok_bind]
  exact canonicalChunkSum_ok _

end VitniTensor
