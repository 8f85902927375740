import VitniTensor.Lib.Fill
import VitniTensor.Lib.PairTree
import VitniTensor.Quant.Reduce
import Mathlib.Algebra.BigOperators.Ring.Finset

/-!
# What the canonical reduction computes

Its loops, the shortcut for one chunk and the tree in place compute one expression, given by the
indices alone: term `i` goes to chunk `i / 8192` and lane `i % 8`, a lane adds up in increasing
order, and pairwise trees combine lanes and then chunks.
-/

namespace VitniTensor

open Outcome Fill

variable {F : Type} [F32 F]

/-! ### The expression -/

/-- Lane `j` of chunk `c`. -/
def laneSum (v : Nat → F) (n c j : Nat) : F :=
  ((List.range n).filter fun i => i / canonChunk = c ∧ i % canonLanes = j).foldl
    (fun acc i => F32.add acc (v i)) F32.zero

def chunkSum (v : Nat → F) (n c : Nat) : F :=
  PairTree.tree F32.add F32.zero ((List.range canonLanes).map (laneSum v n c))

/-- The canonical sum of the first `n` terms. -/
def canonicalValue (v : Nat → F) (n : Nat) : F :=
  PairTree.tree F32.add F32.zero ((List.range ((n + canonChunk - 1) / canonChunk)).map (chunkSum v n))

/-- Only the first `n` terms matter. -/
theorem canonicalValue_congr {v v' : Nat → F} {n : Nat} (h : ∀ i < n, v i = v' i) :
    canonicalValue v n = canonicalValue v' n := by
  have hlane : ∀ c j, laneSum v n c j = laneSum v' n c j := by
    intro c j
    unfold laneSum
    refine List.foldl_ext _ _ _ fun acc i hi => ?_
    rw [h i (List.mem_range.mp (List.mem_filter.mp hi).1)]
  have hchunk : chunkSum v n = chunkSum v' n := by
    funext c
    unfold chunkSum
    rw [List.map_congr_left fun j _ => hlane c j]
  unfold canonicalValue
  rw [hchunk]

/-! ### The tree in place -/

private theorem pairAt_eq {len t : Nat} {part p : List F} (hlen : len ≤ part.length) (ht : 2 * t < len)
    (hp : ∀ i, t ≤ i → p[i]? = part[i]?) :
    ∃ a, pairAt len t p = .ok a ∧ (PairTree.pairUp F32.add (part.take len))[t]? = some a := by
  have hfirst : p[2 * t]? = some part[2 * t] := by
    rw [hp _ (by omega), List.getElem?_eq_getElem (by omega)]
  have htake : (part.take len)[2 * t]? = some part[2 * t] := by
    rw [List.getElem?_take_of_lt ht, List.getElem?_eq_getElem (by omega)]
  rw [PairTree.getElem?_pairUp, htake]
  unfold pairAt
  -- An even tail ends in a lone element, which moves up a level as it is.
  split
  next hpair =>
    have hsecond : p[2 * t + 1]? = some part[2 * t + 1] := by
      rw [hp _ (by omega), List.getElem?_eq_getElem (by omega)]
    rw [List.getElem?_take_of_lt hpair, List.getElem?_eq_getElem (by omega), index_eq_ok.mpr hfirst,
      ok_bind, index_eq_ok.mpr hsecond, ok_bind]
    exact ⟨_, rfl, rfl⟩
  next hodd =>
    have hnone : (part.take len)[2 * t + 1]? = none :=
      List.getElem?_eq_none (by rw [List.length_take]; omega)
    rw [hnone]
    exact ⟨_, index_eq_ok.mpr hfirst, rfl⟩

/-- A level after `t` of its turns: the first `t` cells are those of the next level, and all others
are still as they were. -/
structure HalfDone (len t : Nat) (part p : List F) : Prop where
  length : p.length = part.length
  done : ∀ i < t, p[i]? = (PairTree.pairUp F32.add (part.take len))[i]?
  left : ∀ i, t ≤ i → p[i]? = part[i]?

/-- What a turn reads is not yet overwritten. -/
theorem treeLevel_turns {len t : Nat} {part : List F} (hlen : len ≤ part.length) (ht : t ≤ (len + 1) / 2) :
    ∃ p, forRange t (fun t part => do
      let v ← pairAt len t part
      store part t v) part = .ok p ∧ HalfDone len t part p := by
  have hloop := @forFrom_ok Error (List F) (fun t p => HalfDone len t part p) 0 t (fun t part => do
    let v ← pairAt len t part
    store part t v) part ⟨rfl, fun i hi => absurd hi (Nat.not_lt_zero i), fun _ _ => rfl⟩ (by
      rintro s p - hs half
      obtain ⟨a, hpair, hvalue⟩ := pairAt_eq hlen (by omega) half.left
      -- Turn `t` writes cell `t` and reads only cells from `2 * t` on, which are untouched.
      refine ⟨p.set s a, ?_, by rw [List.length_set, half.length], fun i hi => ?_, fun i hi => ?_⟩
      · rw [hpair, ok_bind, store_of_lt (by rw [half.length]; omega)]
      · by_cases his : i = s
        · subst his
          rw [List.getElem?_set_self (by rw [half.length]; omega), hvalue]
        · rw [List.getElem?_set_ne (Ne.symm his)]
          exact half.done i (by omega)
      · rw [List.getElem?_set_ne (by omega)]
        exact half.left i (by omega))
  rwa [Nat.zero_add] at hloop

private theorem treeLevel_eq {len : Nat} {part : List F} (hlen : len ≤ part.length) :
    ∃ part', treeLevel len part = .ok part' ∧ part'.length = part.length ∧
      part'.take ((len + 1) / 2) = PairTree.pairUp F32.add (part.take len) := by
  obtain ⟨part', hrun, half⟩ := treeLevel_turns hlen (Nat.le_refl _)
  refine ⟨part', hrun, half.length, List.ext_getElem? fun i => ?_⟩
  by_cases hi : i < (len + 1) / 2
  · rw [List.getElem?_take_of_lt hi]
    exact half.done i hi
  · have hshort : (PairTree.pairUp F32.add (part.take len)).length = (len + 1) / 2 := by
      rw [PairTree.length_pairUp, List.length_take, Nat.min_eq_left hlen]
    have hlength := half.length
    rw [List.getElem?_eq_none (by rw [List.length_take]; omega), List.getElem?_eq_none (by omega)]

private theorem treeLevels_eq (levels : Nat) {len : Nat} {part : List F} (hlen : len ≤ part.length)
    (hpos : 0 < len) :
    ∃ part', treeLevels levels len part = .ok part' ∧
      part'[0]? = (PairTree.levels F32.add levels (part.take len))[0]? := by
  -- Induction on the levels: each one halves the length and pairs the prefix up.
  induction levels generalizing len part with
  | zero =>
    refine ⟨part, rfl, ?_⟩
    rw [PairTree.levels, List.getElem?_take_of_lt hpos]
  | succ levels ih =>
    unfold treeLevels
    split
    next hmore =>
      obtain ⟨next, hnext, hsame, htake⟩ := treeLevel_eq hlen
      obtain ⟨last, hlast, hvalue⟩ := @ih ((len + 1) / 2) next (by omega) (by omega)
      refine ⟨last, ?_, ?_⟩
      · rw [hnext, ok_bind, hlast]
      · rw [hvalue, htake, PairTree.levels]
    next hone =>
      refine ⟨part, rfl, ?_⟩
      rw [PairTree.levels_of_length_le_one _ (by rw [List.length_take]; omega),
        List.getElem?_take_of_lt hpos]

theorem fixedTree_eq (part : List F) : fixedTree part = .ok (PairTree.tree F32.add F32.zero part) := by
  obtain ⟨v, hv⟩ := fixedTree_ok part
  rw [hv]
  unfold fixedTree at hv
  split at hv
  -- The empty tree is zero in both.
  next hempty =>
    cases hv
    rw [List.length_eq_zero_iff.mp hempty]
    rfl
  next hsome =>
    obtain ⟨last, hlast, hvalue⟩ :=
      treeLevels_eq part.length (Nat.le_refl part.length) (Nat.pos_of_ne_zero hsome)
    rw [hlast, ok_bind, index_eq_ok, hvalue, List.take_length, ← List.head?_eq_getElem?] at hv
    unfold PairTree.tree
    rw [List.headD_eq_head?_getD, hv, Option.getD_some]

/-! ### Lanes -/

/-- The lanes after the terms of the indices `is`. -/
def lanesOf (v : Nat → F) (is : List Nat) : List F :=
  (List.range canonLanes).map fun j =>
    (is.filter fun i => i % canonLanes = j).foldl (fun acc i => F32.add acc (v i)) F32.zero

/-- One term to its lane. -/
def laneBody (term : Nat → Res F) (i : Nat) : List F → Res (List F) :=
  addTerm term (i % canonLanes) i

theorem zeroLanes_eq (v : Nat → F) : zeroLanes = lanesOf v [] := by
  unfold zeroLanes lanesOf
  simp

theorem length_lanesOf (v : Nat → F) (is : List Nat) : (lanesOf v is).length = canonLanes := by
  unfold lanesOf
  rw [List.length_map, List.length_range]

theorem laneBody_eq {term : Nat → Res F} {v : Nat → F} (is : List Nat) {i : Nat} (hterm : term i = .ok (v i)) :
    laneBody term i (lanesOf v is) = .ok (lanesOf v (is ++ [i])) := by
  have hlane : i % canonLanes < canonLanes := Nat.mod_lt i (by decide)
  have hlength := length_lanesOf v is
  unfold laneBody addTerm addLane
  rw [hterm, ok_bind, index_of_lt (by omega), ok_bind, store_of_lt (by omega)]
  refine congrArg Except.ok (List.ext_getElem? fun j => ?_)
  rw [List.getElem?_set]
  -- Only lane `i % 8` gains a term.
  by_cases hj : i % canonLanes = j
  · subst hj
    rw [if_pos rfl, if_pos (by omega)]
    unfold lanesOf
    rw [List.getElem?_map, List.getElem?_range hlane, List.getElem_map, List.getElem_range,
      Option.map_some, List.filter_append, List.filter_singleton]
    simp
  · rw [if_neg hj]
    unfold lanesOf
    rw [List.getElem?_map, List.getElem?_map]
    by_cases hin : j < canonLanes
    · rw [List.getElem?_range hin, Option.map_some, Option.map_some, List.filter_append,
        List.filter_singleton]
      simp [hj]
    · rw [List.getElem?_eq_none (by rw [List.length_range]; omega)]
      rfl

theorem laneLoop_eq {term : Nat → Res F} {v : Nat → F} (is : List Nat) {lo n : Nat}
    (hterm : ∀ i, lo ≤ i → i < lo + n → term i = .ok (v i)) :
    forFrom lo n (laneBody term) (lanesOf v is) = .ok (lanesOf v (is ++ List.range' lo n)) := by
  induction n generalizing lo is with
  | zero => rw [List.range'_zero, List.append_nil]; rfl
  | succ n ih =>
    rw [forFrom, laneBody_eq is (hterm lo (Nat.le_refl lo) (by omega)), ok_bind,
      ih _ fun i low high => hterm i (by omega) (by omega), List.append_assoc, List.range'_succ,
      List.singleton_append]

/-- The hot loop and the tail are one loop over all terms. -/
theorem addLanes_eq (n : Nat) (term : Nat → Res F) (lanes : List F) :
    addLanes n term lanes = forRange n (laneBody term) lanes := by
  -- A group of eight adds one term to each lane, in order.
  have hgroup : ∀ g, addGroup term g = fun lanes =>
      forRange canonLanes (fun j => laneBody term (g * canonLanes + j)) lanes := by
    intro g
    funext lanes
    refine forFrom_congr (fun _ => True) trivial (fun j t _ hj _ => ?_) fun _ _ _ _ _ => trivial
    have hmod : (g * canonLanes + j) % canonLanes = j := by
      rw [Nat.add_comm, Nat.add_mul_mod_self_right, Nat.mod_eq_of_lt (by omega)]
    unfold laneBody
    rw [hmod, Nat.mul_comm canonLanes g]
  -- The groups cover everything below the last multiple of eight, the tail the rest.
  have hwhole : (n - n % canonLanes) / canonLanes * canonLanes = n - n % canonLanes :=
    Nat.div_mul_cancel (Nat.dvd_sub_mod n)
  have hfront : forRange ((n - n % canonLanes) / canonLanes) (addGroup term) lanes =
      forFrom 0 (n - n % canonLanes) (laneBody term) lanes := by
    have hmul := forRange_mul ((n - n % canonLanes) / canonLanes) canonLanes (laneBody term) lanes
    rw [hwhole] at hmul
    rw [funext hgroup]
    exact hmul.symm
  have hsplit : n = (n - n % canonLanes) + n % canonLanes := by
    have := Nat.mod_le n canonLanes
    omega
  unfold addLanes
  rw [hfront]
  conv_rhs => rw [hsplit, forRange, forFrom_add, Nat.zero_add]
  rfl

/-- Lanes do not see an offset of whole groups. -/
theorem laneLoop_shift {term : Nat → Res F} {v : Nat → F} {s m : Nat} (hs : s % canonLanes = 0)
    (hterm : ∀ i < m, term i = .ok (v (s + i))) (is : List Nat) :
    forRange m (laneBody term) (lanesOf v is) = .ok (lanesOf v (is ++ List.range' s m)) := by
  have hshift : forRange m (laneBody term) (lanesOf v is) =
      forFrom 0 m (fun i => laneBody (fun k => .ok (v k)) (s + i)) (lanesOf v is) := by
    refine forFrom_congr (fun _ => True) trivial (fun i lanes _ hi _ => ?_) fun _ _ _ _ _ => trivial
    have hmod : (s + i) % canonLanes = i % canonLanes := by
      rw [Nat.add_mod, hs, Nat.zero_add, Nat.mod_mod]
    unfold laneBody addTerm
    rw [hmod, hterm i (by omega)]
  rw [hshift, ← forFrom_shift, Nat.add_zero]
  exact laneLoop_eq is fun _ _ _ => rfl

/-! ### Chunks -/

/-- The tree of the lanes of the indices from `s` to `e`. -/
def rangeValue (v : Nat → F) (s e : Nat) : F :=
  PairTree.tree F32.add F32.zero (lanesOf v (List.range' s (e - s)))

/-- The indices of a chunk. -/
private theorem filter_chunk {n c : Nat} (hc : c * canonChunk ≤ n) :
    (List.range n).filter (fun i => i / canonChunk = c) =
      List.range' (c * canonChunk) (min (c * canonChunk + canonChunk) n - c * canonChunk) := by
  obtain ⟨size, hsize⟩ : ∃ size, min (c * canonChunk + canonChunk) n - c * canonChunk = size := ⟨_, rfl⟩
  -- Before the chunk, the chunk, behind it.
  have hsplit : List.range n = List.range' 0 (c * canonChunk) ++ (List.range' (c * canonChunk) size ++
      List.range' (c * canonChunk + size) (n - (c * canonChunk + size))) := by
    have houter := @List.range'_append_1 0 (c * canonChunk) (size + (n - (c * canonChunk + size)))
    have hcount : c * canonChunk + (size + (n - (c * canonChunk + size))) = n := by omega
    rw [Nat.zero_add, hcount] at houter
    rw [List.range'_append_1, houter, List.range_eq_range']
  have hquot : ∀ i, i / canonChunk = c ↔ c * canonChunk ≤ i ∧ i < c * canonChunk + canonChunk := by
    intro i
    unfold canonChunk
    omega
  rw [hsize, hsplit, List.filter_append, List.filter_append]
  rw [List.filter_eq_nil_iff.mpr fun i hi => ?_, List.filter_eq_self.mpr fun i hi => ?_,
    List.filter_eq_nil_iff.mpr fun i hi => ?_, List.nil_append, List.append_nil]
  all_goals
    rw [List.mem_range'_1] at hi
    simp only [decide_eq_true_eq, hquot]
    unfold canonChunk at *
    omega

theorem chunkSum_eq (v : Nat → F) {n c : Nat} (hc : c * canonChunk ≤ n) :
    chunkSum v n c = rangeValue v (c * canonChunk) (min (c * canonChunk + canonChunk) n) := by
  unfold chunkSum rangeValue lanesOf laneSum
  rw [← filter_chunk hc]
  simp only [List.filter_filter, Bool.decide_and, Bool.and_comm]

/-- A reduction in chunks, each of which reduces its range of terms. -/
theorem inChunks_eq {n : Nat} {v : Nat → F} {chunk : Nat → Nat → Res F}
    (hchunk : ∀ s e, s % canonLanes = 0 → s ≤ e → e ≤ n → chunk s e = .ok (rangeValue v s e)) :
    inChunks n chunk = .ok (canonicalValue v n) := by
  unfold inChunks canonicalValue
  split
  next hzero =>
    subst hzero
    rfl
  next hsome =>
    have hmul : ∀ c, c * canonChunk % canonLanes = 0 := fun c => by unfold canonChunk canonLanes; omega
    -- At most one chunk: the range is folded directly, without a tree.
    split
    next hone =>
      have hcount : (n + canonChunk - 1) / canonChunk = 1 := by unfold canonChunk at *; omega
      have hfirst := @chunkSum_eq F _ v n 0 (by rw [Nat.zero_mul]; exact Nat.zero_le n)
      rw [hcount, List.range_one, List.map_singleton, PairTree.tree_singleton, hfirst,
        hchunk 0 n (by decide) (Nat.zero_le n) (Nat.le_refl n), Nat.zero_mul, Nat.zero_add,
        Nat.min_eq_right hone]
    -- More than one: the chunks' sums are collected and folded by the tree.
    next hmany =>
      rw [collectRange_eq fun c hc => ?_, ok_bind, fixedTree_eq]
      have hle : c * canonChunk ≤ n := by unfold canonChunk at *; omega
      have hstart : c * canonChunk ≤ min (c * canonChunk + canonChunk) n :=
        Nat.le_min.mpr ⟨Nat.le_add_right _ _, hle⟩
      rw [chunkSum_eq v hle, hchunk _ _ (hmul c) hstart (Nat.min_le_right _ _)]

/-- Product `i` of two vectors. -/
def productOf (x w : List F) (i : Nat) : F :=
  F32.mul (x.getD i F32.zero) (w.getD i F32.zero)

/-- One chunk of a dot product, on its own: `canonical_chunk` of the two slices. -/
def dotRange (x w : List F) (s e : Nat) : Res F := do
  let xs ← slice x s e
  let ws ← slice w s e
  canonicalChunk xs ws

private theorem index_cut {x : List F} {s e i : Nat} (hi : i < e - s) (he : e ≤ x.length) :
    (index ((x.drop s).take (e - s)) i : Res F) = .ok (x.getD (s + i) F32.zero) := by
  rw [index_eq_ok, List.getElem?_take_of_lt hi, List.getElem?_drop, List.getD_eq_getElem?_getD,
    List.getElem?_eq_getElem (by omega), Option.getD_some]

theorem dotRange_eq {x w : List F} {s e : Nat} (hs : s % canonLanes = 0) (hse : s ≤ e) (hx : e ≤ x.length)
    (hw : e ≤ w.length) : dotRange x w s e = .ok (rangeValue (productOf x w) s e) := by
  have hlength : ((x.drop s).take (e - s)).length = e - s := by
    rw [List.length_take, List.length_drop]
    omega
  unfold dotRange canonicalChunk
  rw [slice_of_le hse hx, ok_bind, slice_of_le hse hw, ok_bind, hlength, addLanes_eq,
    zeroLanes_eq (productOf x w), laneLoop_shift hs (fun i hi => ?_), ok_bind, fixedTree_eq,
    List.nil_append]
  · rfl
  · unfold productAt
    rw [index_cut hi hx, ok_bind, index_cut hi hw]
    rfl

theorem canonicalDot_value {x w : List F} {n : Nat} (hx : n ≤ x.length) (hw : n ≤ w.length) :
    canonicalDot x w n = .ok (canonicalValue (productOf x w) n) :=
  inChunks_eq fun _ _ hs hse hen => dotRange_eq hs hse (Nat.le_trans hen hx) (Nat.le_trans hen hw)

theorem canonicalSum_value {x : List F} {n : Nat} (hx : n ≤ x.length) :
    canonicalSum x n = .ok (canonicalValue (fun i => x.getD i F32.zero) n) := by
  refine inChunks_eq fun s e hs hse hen => ?_
  have hlength : ((x.drop s).take (e - s)).length = e - s := by
    rw [List.length_take, List.length_drop]
    omega
  unfold canonicalChunkSum
  rw [slice_of_le hse (by omega), ok_bind, hlength, addLanes_eq, zeroLanes_eq fun i => x.getD i F32.zero,
    laneLoop_shift hs (fun i hi => index_cut hi (by omega)), ok_bind, fixedTree_eq, List.nil_append]
  rfl

/-- Chunk `c` of a dot product of length `n`. -/
def dotChunk (x w : List F) (n c : Nat) : Res F :=
  dotRange x w (c * canonChunk) (min (c * canonChunk + canonChunk) n)

/-- The chunk sums of a dot product, computed one by one in the given order. -/
def sumsInOrder (x w : List F) (n : Nat) (order : List Nat) : Res (List F) :=
  order.foldlM (fun sums c => storeAt (dotChunk x w n) 0 c sums)
    (List.replicate ((n + canonChunk - 1) / canonChunk) F32.zero)

/-- The order in which the chunks are done does not show. -/
theorem combine_sumsInOrder {x w : List F} {n : Nat} (hx : n ≤ x.length) (hw : n ≤ w.length)
    {order : List Nat} (horder : order.Perm (List.range ((n + canonChunk - 1) / canonChunk))) :
    (sumsInOrder x w n order >>= canonicalCombine) = .ok (canonicalValue (productOf x w) n) := by
  have hin : ∀ c ∈ order, c < (n + canonChunk - 1) / canonChunk := fun c hc =>
    List.mem_range.mp (horder.mem_iff.mp hc)
  -- Every chunk of the order writes its own cell; which one comes first does not matter.
  have hfill : ∀ (cs : List Nat) (y : List F), (∀ c ∈ cs, c ∈ order) →
      y.length = (n + canonChunk - 1) / canonChunk →
      cs.foldlM (fun sums c => storeAt (dotChunk x w n) 0 c sums) y =
        .ok (fill (chunkSum (productOf x w) n) cs y) := by
    intro cs
    induction cs with
    | nil => exact fun y _ _ => rfl
    | cons c cs ih =>
      intro y hcs hy
      have hc := hin c (hcs c List.mem_cons_self)
      have hle : c * canonChunk ≤ n := by unfold canonChunk at *; omega
      have hstart : c * canonChunk ≤ min (c * canonChunk + canonChunk) n :=
        Nat.le_min.mpr ⟨Nat.le_add_right _ _, hle⟩
      have hend := Nat.min_le_right (c * canonChunk + canonChunk) n
      have hmul : c * canonChunk % canonLanes = 0 := by unfold canonChunk canonLanes; omega
      have hstep : storeAt (dotChunk x w n) 0 c y = .ok (y.set c (chunkSum (productOf x w) n c)) := by
        unfold storeAt dotChunk
        rw [dotRange_eq hmul hstart (by omega) (by omega), ok_bind, Nat.zero_add,
          store_of_lt (by omega), chunkSum_eq _ hle]
      rw [List.foldlM_cons, hstep, ok_bind,
        ih _ (fun d hd => hcs d (List.mem_cons_of_mem c hd)) (by rw [List.length_set, hy]), fill_cons]
  unfold sumsInOrder canonicalCombine
  -- The order names every chunk, so no cell keeps its initial zero.
  rw [hfill order _ (fun _ hc => hc) List.length_replicate, ok_bind, fixedTree_eq, fill_all fun i hi => ?_,
    List.length_replicate]
  · rfl
  · rw [List.length_replicate] at hi
    exact horder.mem_iff.mpr (List.mem_range.mpr hi)

/-! ### Lanes and chunks partition the terms -/

theorem sum_lanes {M : Type} [AddCommMonoid M] (f : Nat → M) (n c : Nat) :
    ∑ j ∈ Finset.range canonLanes, ∑ i ∈ Finset.range n with i / canonChunk = c ∧ i % canonLanes = j, f i =
      ∑ i ∈ Finset.range n with i / canonChunk = c, f i := by
  simp only [← Finset.filter_filter]
  exact Finset.sum_fiberwise_of_maps_to (fun i _ => Finset.mem_range.mpr (Nat.mod_lt i (by decide))) f

theorem sum_chunks {M : Type} [AddCommMonoid M] (f : Nat → M) (n : Nat) :
    ∑ c ∈ Finset.range ((n + canonChunk - 1) / canonChunk), ∑ i ∈ Finset.range n with i / canonChunk = c, f i =
      ∑ i ∈ Finset.range n, f i := by
  refine Finset.sum_fiberwise_of_maps_to (fun i hi => ?_) f
  rw [Finset.mem_range] at hi ⊢
  unfold canonChunk
  omega

/-! ### Exact arithmetic -/

/-- Arithmetic without rounding. -/
structure F32.Exact (R : Type) [CommSemiring R] [F32 R] : Prop where
  zero : (F32.zero : R) = 0
  add : ∀ a b : R, F32.add a b = a + b
  mul : ∀ a b : R, F32.mul a b = a * b

/-- The operations of a semiring, where the reductions use them. -/
abbrev F32.ofSemiring (R : Type) [CommSemiring R] : F32 R where
  ofBits _ := 0
  toBits _ := 0
  add := (· + ·)
  sub x _ := x
  mul := (· * ·)
  div x _ := x
  neg x := x
  lt _ _ := false
  le _ _ := false
  ofInt _ := 0
  toI32 _ := 0
  expf x := x
  powf x _ := x
  cosf x := x
  sinf x := x
  sqrtf x := x

theorem F32.exact_ofSemiring (R : Type) [CommSemiring R] : @F32.Exact R _ (F32.ofSemiring R) :=
  @F32.Exact.mk R _ (F32.ofSemiring R) rfl (fun _ _ => rfl) fun _ _ => rfl

section Exact

variable {R : Type} [CommSemiring R] [F32 R]

theorem laneSum_exact (h : F32.Exact R) (v : Nat → R) (n c j : Nat) :
    laneSum v n c j = ∑ i ∈ Finset.range n with i / canonChunk = c ∧ i % canonLanes = j, v i := by
  have hfold : ∀ (is : List Nat) (a : R), is.foldl (fun acc i => F32.add acc (v i)) a = a + (is.map v).sum := by
    intro is
    induction is with
    | nil => exact fun a => (add_zero a).symm
    | cons i is ih =>
      intro a
      rw [List.foldl_cons, ih, h.add, List.map_cons, List.sum_cons, add_assoc]
  unfold laneSum
  rw [hfold, h.zero, zero_add]
  rfl

theorem tree_exact (h : F32.Exact R) (n : Nat) (v : Nat → R) :
    PairTree.tree F32.add F32.zero ((List.range n).map v) = ∑ i ∈ Finset.range n, v i := by
  have hadd : (F32.add : R → R → R) = (· + ·) := funext fun a => funext fun b => h.add a b
  rw [hadd, h.zero, PairTree.tree_add]
  rfl

theorem canonicalValue_exact (h : F32.Exact R) (v : Nat → R) (n : Nat) :
    canonicalValue v n = ∑ i ∈ Finset.range n, v i := by
  have hchunk : ∀ c, chunkSum v n c = ∑ i ∈ Finset.range n with i / canonChunk = c, v i := by
    intro c
    unfold chunkSum
    rw [tree_exact h, Finset.sum_congr rfl fun j _ => laneSum_exact h v n c j, sum_lanes]
  unfold canonicalValue
  rw [tree_exact h, Finset.sum_congr rfl fun c _ => hchunk c, sum_chunks]

end Exact

/-- **The canonical reduction.** A dot product is the expression of its indices, whatever the
order in which its chunks are done; so is a sum, of its elements; and without rounding the
expression is the plain sum of the products. -/
theorem canonical_reduction_value (x w : List F) (n : Nat) (hx : n ≤ x.length) (hw : n ≤ w.length) :
    canonicalDot x w n = .ok (canonicalValue (productOf x w) n) ∧
      (∀ order : List Nat, order.Perm (List.range ((n + canonChunk - 1) / canonChunk)) →
        (sumsInOrder x w n order >>= canonicalCombine) = canonicalDot x w n) ∧
      canonicalSum x n = .ok (canonicalValue (fun i => x.getD i F32.zero) n) ∧
      ∀ (R : Type) [CommSemiring R] [F32 R], F32.Exact R → ∀ y z : List R, n ≤ y.length → n ≤ z.length →
        canonicalDot y z n = .ok (∑ i ∈ Finset.range n, y.getD i 0 * z.getD i 0) := by
  refine ⟨canonicalDot_value hx hw, fun order horder => ?_, canonicalSum_value hx,
    fun R _ _ h y z hy hz => ?_⟩
  · rw [combine_sumsInOrder hx hw horder, canonicalDot_value hx hw]
  -- In an exact arithmetic, the value does not depend on the tree at all.
  · rw [canonicalDot_value hy hz, canonicalValue_exact h]
    refine congrArg Except.ok (Finset.sum_congr rfl fun i _ => ?_)
    unfold productOf
    rw [h.mul, h.zero]

/-- Nine products, so that the first lane gets two. -/
theorem canonical_reduction_value_nine :
    @canonicalDot Nat (F32.ofSemiring Nat) (List.replicate 9 2) (List.replicate 9 3) 9 = .ok 54 := by
  obtain ⟨-, -, -, hexact⟩ := @canonical_reduction_value Nat (F32.ofSemiring Nat) (List.replicate 9 2)
    (List.replicate 9 3) 9 (by decide) (by decide)
  exact @hexact Nat _ (F32.ofSemiring Nat) (F32.exact_ofSemiring Nat) _ _ (by decide) (by decide)

end VitniTensor
