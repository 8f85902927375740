import VitniTensor.Gpu.Norms
import VitniTensor.Lib.Scatter
import VitniTensor.Quant.Decoded
import VitniTensor.Quant.Unpack

/-!
# The cooperative Q4_K kernel

`k_q4k_coop` gives eight threads to a row. Each sums one lane of every chunk and publishes the sums in a
shared table; past the barrier the row's first thread rebuilds the two levels of trees. A cell of the table
is empty until a thread stores to it, and a run that reads an empty cell, or that steps out of the table,
has no outcome.
-/

open F32

namespace VitniTensor

open Outcome Loop Scatter Rows

open Cuda.Device

namespace Cuda.Coop

variable {F : Type} [F32 F]

/-- The arguments of the kernel that it uses. -/
structure CoopArgs (F : Type) where
  x : Nat → F
  w : Nat → UInt8
  out : Nat → F
  M : UInt32
  nsuper : UInt32
  acc : Bool

/-- `sh[row_in_block][lane][chunk]`. -/
abbrev Cell := Nat × Nat × Nat

/-- The registers of a lane thread, and what it has stored. -/
structure CoopLane (F : Type) where
  laneacc : F
  sbInChunk : Nat
  nch : Nat
  stored : List (Cell × F)

namespace CoopArgs

variable (g : CoopArgs F)

/-- The product of position `p` of super-block `b` of a row. -/
def term (wrow : Nat → UInt8) (b p : Nat) : F :=
  let blk := fun i => wrow (b * 144 + i)
  let d : F := f16At blk 0
  let dmin : F := f16At blk 2
  let sc := fun i => blk (4 + i)
  let qs := fun i => blk (16 + i)
  let gbase := b * 256
  let sub' := p / 64
  let within := p % 64
  let t := within % 32
  let half := within / 32
  let sm := Device.getScaleMinK4 (sub' * 2 + half) sc
  let q := qs (sub' * 32 + t)
  let nib := if half = 0 then lowNibble q else highNibble q
  let d1 := mul d (ofInt sm.1.toNat)
  let mf := mul dmin (ofInt sm.2.toNat)
  let val := sub (mul d1 (ofInt nib)) mf
  mul (g.x (gbase + p)) val

/-- A lane thread on super-block `b`. -/
def laneTurn (wrow : Nat → UInt8) (rrow lane b : Nat) (st : CoopLane F) : CoopLane F :=
  let laneacc := loop 32 (fun tt laneacc => add laneacc (g.term wrow b (lane + tt * 8))) st.laneacc
  let sbInChunk := st.sbInChunk + 1
  if sbInChunk = 32 ∨ b = g.nsuper.toNat - 1 then
    ⟨zero, 0, st.nch + 1, st.stored ++ [((rrow, lane, st.nch), laneacc)]⟩
  else ⟨laneacc, sbInChunk, st.nch, st.stored⟩

/-- What thread `tid` of a block stores before the barrier. -/
def published (bx tid : Nat) : List (Cell × F) :=
  let lane := tid % 8
  let rrow := tid / 8
  let row := bx * 8 + rrow
  if row < g.M.toNat then
    (loop g.nsuper.toNat (g.laneTurn (fun i => g.w (row * g.nsuper.toNat * 144 + i)) rrow lane)
      ⟨zero, 0, 0, []⟩).stored
  else []

/-- `sh[8][8][8]` at the barrier. -/
def shared (bx : Nat) : Option (Cell → Option F) :=
  let stores := (List.range 64).flatMap (g.published bx)
  if ∀ s ∈ stores, s.1.1 < 8 ∧ s.1.2.1 < 8 ∧ s.1.2.2 < 8 then
    some (scatter (fun _ => none) (stores.map fun s => (s.1, some s.2)))
  else none

/-- The sum of a chunk: the lanes of `sh`, and their tree. -/
def chunkSum (sh : Cell → Option F) (rrow c : Nat) : Option F := do
  let l ← (List.range 8).mapM fun j => sh (rrow, j, c)
  some (Device.fixedTree (fun j => l.getD j zero) 8)

/-- What thread `tid` stores past the barrier. -/
def combined (bx : Nat) (sh : Cell → Option F) (tid : Nat) : Option (List (Nat × F)) :=
  let lane := tid % 8
  let rrow := tid / 8
  let row := bx * 8 + rrow
  let nchTotal := (g.nsuper.toNat + 31) / 32
  if row < g.M.toNat ∧ lane = 0 then
    -- `cs[8]`
    if nchTotal > 8 then none
    else do
      let cs ← (List.range nchTotal).mapM (chunkSum sh rrow)
      let r := Device.fixedTree (fun c => cs.getD c zero) nchTotal
      some [(row, if g.acc then add (g.out row) r else r)]
  else some []

def block (bx : Nat) : Option (List (Nat × F)) := do
  let sh ← g.shared bx
  let stores ← (List.range 64).mapM (g.combined bx sh)
  some stores.flatten

end CoopArgs

/-- `k_q4k_coop<<<(M + 7) / 8, 64>>>`. No thread reads an output that another one stores. -/
def kQ4kCoop (g : CoopArgs F) : Option (Nat → F) := do
  let stores ← (List.range ((g.M.toNat + 7) / 8)).mapM g.block
  some (scatter g.out stores.flatten)

/-! ### Lanes -/

omit [F32 F] in
private theorem loop_eq_foldl {σ : Type} (n : Nat) (f : Nat → σ → σ) (s : σ) :
    loop n f s = (List.range n).foldl (fun s i => f i s) s := by
  induction n with
  | zero => rfl
  | succ n ih => rw [loop, ih, List.range_succ, List.foldl_append]; rfl

/-- The positions of a lane in a super-block. -/
private theorem filter_lane : ∀ j < 8, (List.range 256).filter (fun p => p % 8 = j) =
    (List.range 32).map fun tt => j + tt * 8 := by
  decide

/-- One super-block of a lane continues the sum of its chunk. -/
theorem laneSum_superblock (v : Nat → F) (b : Nat) {j : Nat} (hj : j < 8) :
    laneSum v ((b + 1) * 256) (b / 32) j =
      loop 32 (fun tt acc => add acc (v (b * 256 + (j + tt * 8)))) (laneSum v (b * 256) (b / 32) j) := by
  -- The indices of one more superblock, appended to the earlier ones.
  have hsplit : List.range ((b + 1) * 256) = List.range (b * 256) ++ (List.range 256).map (b * 256 + ·) := by
    rw [Nat.add_mul, Nat.one_mul, List.range_add]
  have hhere : ((List.range 256).map (b * 256 + ·)).filter (fun i => i / canonChunk = b / 32 ∧ i % canonLanes = j) =
      (List.range 32).map fun tt => b * 256 + (j + tt * 8) := by
    -- All 256 of them lie in one chunk; the lane takes those congruent to it modulo 8.
    have hcond : ∀ p ∈ List.range 256, ((fun i => decide (i / canonChunk = b / 32 ∧ i % canonLanes = j)) ∘
        fun p => b * 256 + p) p = decide (p % 8 = j) := by
      intro p hp
      have hlt := List.mem_range.mp hp
      refine decide_eq_decide.mpr ?_
      change (b * 256 + p) / 8192 = b / 32 ∧ (b * 256 + p) % 8 = j ↔ p % 8 = j
      omega
    rw [List.filter_map, List.filter_congr hcond, filter_lane j hj, List.map_map]
    rfl
  unfold laneSum
  rw [hsplit, List.filter_append, hhere, List.foldl_append, List.foldl_map, loop_eq_foldl]

/-- A chunk starts from nothing. -/
theorem laneSum_start (v : Nat → F) {b : Nat} (hb : b % 32 = 0) (j : Nat) :
    laneSum v (b * 256) (b / 32) j = zero := by
  have hnone : (List.range (b * 256)).filter (fun i => i / canonChunk = b / 32 ∧ i % canonLanes = j) = [] := by
    refine List.filter_eq_nil_iff.mpr fun i hi => ?_
    have hlt := List.mem_range.mp hi
    simp only [decide_eq_true_eq]
    unfold canonChunk
    omega
  unfold laneSum
  rw [hnone]
  rfl

/-- A chunk is done past its last position. -/
theorem laneSum_done (v : Nat → F) {b n c : Nat} (hb : b = n ∨ (c + 1) * 32 ≤ b) (hbn : b ≤ n) (j : Nat) :
    laneSum v (b * 256) c j = laneSum v (n * 256) c j := by
  rcases hb with rfl | hb
  · rfl
  · have hsplit : List.range (n * 256) = List.range (b * 256) ++ (List.range (n * 256 - b * 256)).map (b * 256 + ·) := by
      have hlength : n * 256 = b * 256 + (n * 256 - b * 256) := by omega
      conv_lhs => rw [hlength]
      rw [List.range_add]
    -- Past the chunk's last superblock, no index belongs to it.
    have hrest : ((List.range (n * 256 - b * 256)).map (b * 256 + ·)).filter
        (fun i => i / canonChunk = c ∧ i % canonLanes = j) = [] := by
      refine List.filter_eq_nil_iff.mpr fun i hi => ?_
      obtain ⟨k, -, rfl⟩ := List.mem_map.mp hi
      simp only [decide_eq_true_eq]
      unfold canonChunk
      omega
    unfold laneSum
    rw [hsplit, List.filter_append, hrest, List.append_nil]

/-! ### The shared table -/

section

variable (g : CoopArgs F)

/-- The sums that a lane thread publishes for the first `k` chunks. -/
def laneStores (v : Nat → F) (n rrow lane k : Nat) : List (Cell × F) :=
  (List.range k).map fun c => ((rrow, lane, c), laneSum v (n * 256) c lane)

theorem laneStores_succ (v : Nat → F) (n rrow lane k : Nat) :
    laneStores v n rrow lane (k + 1) = laneStores v n rrow lane k ++ [((rrow, lane, k), laneSum v (n * 256) k lane)] := by
  unfold laneStores
  rw [List.range_succ, List.map_append]
  rfl

/-- The loop of a lane thread: before the last super-block the open chunk is in the register, and the closed
ones are stored. -/
theorem laneLoop_stored (wrow : Nat → UInt8) (rrow : Nat) {v : Nat → F} {lane : Nat} (hlane : lane < 8)
    (hterm : ∀ b p, p < 256 → g.term wrow b p = v (b * 256 + p)) :
    (loop g.nsuper.toNat (g.laneTurn wrow rrow lane) ⟨zero, 0, 0, []⟩).stored =
      laneStores v g.nsuper.toNat rrow lane ((g.nsuper.toNat + 31) / 32) := by
  obtain ⟨n, hn⟩ : ∃ n, g.nsuper.toNat = n := ⟨_, rfl⟩
  -- Before turn `k`: the running sum of the current chunk, and the cells of the closed ones.
  have hinv := @loop_invariant (CoopLane F) n (g.laneTurn wrow rrow lane) ⟨zero, 0, 0, []⟩
    (fun k st => (k < n → st = ⟨laneSum v (k * 256) (k / 32) lane, k % 32, k / 32, laneStores v n rrow lane (k / 32)⟩) ∧
      (k = n → st.stored = laneStores v n rrow lane ((n + 31) / 32))) ?_ fun k hk st hst => ?_
  · rw [hn]
    exact hinv.2 rfl
  · constructor
    · intro _
      rw [laneSum_start v rfl]
      rfl
    · rintro rfl
      rfl
  -- The inner loop adds this superblock's share to the lane.
  · have hturn : loop 32 (fun tt laneacc => add laneacc (g.term wrow k (lane + tt * 8))) (laneSum v (k * 256) (k / 32) lane) =
        laneSum v ((k + 1) * 256) (k / 32) lane := by
      rw [laneSum_superblock v k hlane]
      exact loop_congr fun tt htt acc => by rw [hterm k _ (by omega)]
    rw [hst.1 hk]
    unfold CoopArgs.laneTurn
    dsimp only
    rw [hturn, hn]
    -- The chunk closes after 32 superblocks or with the last one.
    by_cases hclose : k % 32 + 1 = 32 ∨ k = n - 1
    · have hdone : laneSum v ((k + 1) * 256) (k / 32) lane = laneSum v (n * 256) (k / 32) lane :=
        laneSum_done v (by omega) (by omega) lane
      rw [if_pos hclose, hdone, ← laneStores_succ]
      constructor
      · intro hmore
        have hnext : (k + 1) / 32 = k / 32 + 1 := by omega
        have hmod : (k + 1) % 32 = 0 := by omega
        rw [laneSum_start v hmod, hmod, hnext]
      · intro hlast
        have hcount : (n + 31) / 32 = k / 32 + 1 := by omega
        rw [hcount]
    · have hmod : (k + 1) % 32 = k % 32 + 1 := by omega
      have hsame : (k + 1) / 32 = k / 32 := by omega
      rw [if_neg hclose, hmod, hsame]
      exact ⟨fun _ => rfl, fun hlast => absurd hlast (by omega)⟩
-- What a closed chunk stored is its sum over the whole row.

/-- Term `i` of a row. -/
def rowTerm (row i : Nat) : F :=
  g.term (fun k => g.w (row * g.nsuper.toNat * 144 + k)) (i / 256) (i % 256)

theorem published_eq {bx tid : Nat} (hrow : bx * 8 + tid / 8 < g.M.toNat) :
    g.published bx tid =
      laneStores (rowTerm g (bx * 8 + tid / 8)) g.nsuper.toNat (tid / 8) (tid % 8) ((g.nsuper.toNat + 31) / 32) := by
  unfold CoopArgs.published
  dsimp only
  rw [if_pos hrow]
  refine laneLoop_stored g _ _ (Nat.mod_lt _ (by decide)) fun b p hp => ?_
  have hdiv : (b * 256 + p) / 256 = b := by omega
  have hmod : (b * 256 + p) % 256 = p := by omega
  unfold rowTerm
  rw [hdiv, hmod]

/-- The stores of a block, by their cells. -/
theorem mem_published {bx : Nat} {cell : Cell} {a : F} :
    (cell, a) ∈ (List.range 64).flatMap (g.published bx) ↔ cell.1 < 8 ∧ cell.2.1 < 8 ∧
      cell.2.2 < (g.nsuper.toNat + 31) / 32 ∧ bx * 8 + cell.1 < g.M.toNat ∧
      a = laneSum (rowTerm g (bx * 8 + cell.1)) (g.nsuper.toNat * 256) cell.2.2 cell.2.1 := by
  rw [List.mem_flatMap]
  constructor
  -- Each thread publishes for its own row and lane, if the row exists.
  · rintro ⟨tid, htid, hs⟩
    have hlt := List.mem_range.mp htid
    by_cases hrow : bx * 8 + tid / 8 < g.M.toNat
    · rw [published_eq g hrow] at hs
      obtain ⟨c, hc, heq⟩ := List.mem_map.mp hs
      obtain ⟨rfl, rfl⟩ := Prod.mk.inj heq
      exact ⟨by dsimp only; omega, by dsimp only; omega, List.mem_range.mp hc, hrow, rfl⟩
    · unfold CoopArgs.published at hs
      dsimp only at hs
      rw [if_neg hrow] at hs
      exact absurd hs List.not_mem_nil
  -- Cell (row, lane, chunk) belongs to thread `8 * row + lane`.
  · obtain ⟨rrow, lane, c⟩ := cell
    rintro ⟨hrrow, hlane, hc, hrow, rfl⟩
    dsimp only at hrrow hlane hc hrow ⊢
    have hdiv : (rrow * 8 + lane) / 8 = rrow := by omega
    have hmod : (rrow * 8 + lane) % 8 = lane := by omega
    refine ⟨rrow * 8 + lane, List.mem_range.mpr (by omega), ?_⟩
    rw [published_eq g (by rw [hdiv]; exact hrow), hdiv, hmod]
    exact List.mem_map.mpr ⟨c, List.mem_range.mpr hc, rfl⟩

/-- At the barrier the table holds every lane of every chunk of the block's rows, and no store is out of range. -/
theorem shared_eq (hns : g.nsuper.toNat ≤ 256) (bx : Nat) : ∃ sh, g.shared bx = some sh ∧
    ∀ rrow < 8, ∀ lane < 8, ∀ c < (g.nsuper.toNat + 31) / 32, bx * 8 + rrow < g.M.toNat →
      sh (rrow, lane, c) = some (laneSum (rowTerm g (bx * 8 + rrow)) (g.nsuper.toNat * 256) c lane) := by
  refine ⟨_, if_pos fun s hs => ?_, fun rrow hrrow lane hlane c hc hrow => ?_⟩
  · obtain ⟨h1, h2, h3, -⟩ := (mem_published g).mp hs
    exact ⟨h1, h2, by omega⟩
  · refine scatter_stored ⟨((rrow, lane, c), some (laneSum _ _ c lane)), List.mem_map.mpr ⟨((rrow, lane, c), _),
      (mem_published g).mpr ⟨hrrow, hlane, hc, hrow, rfl⟩, rfl⟩, rfl⟩ fun s hs hcell => ?_
    obtain ⟨t, ht, rfl⟩ := List.mem_map.mp hs
    dsimp only at hcell ⊢
    obtain ⟨-, -, -, -, hvalue⟩ := (mem_published g).mp ht
    rw [hcell] at hvalue
    rw [hvalue]

/-! ### Past the barrier -/

omit [F32 F] in
private theorem mapM_some {α β : Type} {f : α → Option β} {f' : α → β} {l : List α} (h : ∀ a ∈ l, f a = some (f' a)) :
    l.mapM f = some (l.map f') := by
  induction l with
  | nil => rfl
  | cons a l ih =>
    rw [List.mapM_cons, h a List.mem_cons_self, ih fun b hb => h b (List.mem_cons_of_mem _ hb)]
    rfl

/-- A tree over the cells that a thread has read. -/
private theorem fixedTree_getD (f : Nat → F) (len : Nat) :
    Device.fixedTree (fun j => ((List.range len).map f).getD j zero) len =
      PairTree.tree F32.add F32.zero ((List.range len).map f) := by
  rw [Device.fixedTree_eq]
  unfold Device.cells
  refine congrArg _ (List.map_congr_left fun j hj => ?_)
  rw [List.getD_eq_getElem?_getD, List.getElem?_map, List.getElem?_range (List.mem_range.mp hj)]
  rfl

/-- The value that a row's first thread computes. -/
def coopValue (row : Nat) : F :=
  canonicalValue (rowTerm g row) (g.nsuper.toNat * 256)

theorem combined_eq (hns : g.nsuper.toNat ≤ 256) {bx : Nat} {sh : Cell → Option F}
    (hsh : ∀ rrow < 8, ∀ lane < 8, ∀ c < (g.nsuper.toNat + 31) / 32, bx * 8 + rrow < g.M.toNat →
      sh (rrow, lane, c) = some (laneSum (rowTerm g (bx * 8 + rrow)) (g.nsuper.toNat * 256) c lane))
    {tid : Nat} (htid : tid < 64) :
    g.combined bx sh tid = some (if bx * 8 + tid / 8 < g.M.toNat ∧ tid % 8 = 0 then
      [(bx * 8 + tid / 8, if g.acc then add (g.out (bx * 8 + tid / 8)) (coopValue g (bx * 8 + tid / 8))
        else coopValue g (bx * 8 + tid / 8))] else []) := by
  unfold CoopArgs.combined
  dsimp only
  -- Only lane 0 of an existing row writes; everybody else returns.
  by_cases hfirst : bx * 8 + tid / 8 < g.M.toNat ∧ tid % 8 = 0
  -- Eight published lanes are folded to the chunk's sum.
  · have hchunk : ∀ c ∈ List.range ((g.nsuper.toNat + 31) / 32), CoopArgs.chunkSum sh (tid / 8) c =
        some (chunkSum (rowTerm g (bx * 8 + tid / 8)) (g.nsuper.toNat * 256) c) := by
      intro c hc
      have hlanes : (List.range 8).mapM (fun j => sh (tid / 8, j, c)) = some ((List.range 8).map
          (laneSum (rowTerm g (bx * 8 + tid / 8)) (g.nsuper.toNat * 256) c)) :=
        mapM_some fun j hj => hsh (tid / 8) (by omega) j (List.mem_range.mp hj) c (List.mem_range.mp hc) hfirst.1
      unfold CoopArgs.chunkSum
      rw [hlanes]
      exact congrArg some (fixedTree_getD _ 8)
    -- The kernel counts chunks of 32 superblocks, the host chunks of 8192 products.
    have hcount : (g.nsuper.toNat + 31) / 32 = (g.nsuper.toNat * 256 + canonChunk - 1) / canonChunk := by
      unfold canonChunk
      omega
    have hvalue : Device.fixedTree (fun c => ((List.range ((g.nsuper.toNat + 31) / 32)).map
        (chunkSum (rowTerm g (bx * 8 + tid / 8)) (g.nsuper.toNat * 256))).getD c zero) ((g.nsuper.toNat + 31) / 32) =
        coopValue g (bx * 8 + tid / 8) := by
      rw [fixedTree_getD, hcount]
      rfl
    rw [if_pos hfirst, if_pos hfirst, if_neg (by omega), mapM_some hchunk, Option.bind_eq_bind, Option.bind_some, hvalue]
  · rw [if_neg hfirst, if_neg hfirst]

/-- A block stores the values of its own rows. -/
theorem block_eq (hns : g.nsuper.toNat ≤ 256) (bx : Nat) : ∃ stores, g.block bx = some stores ∧
    ∀ o a, (o, a) ∈ stores ↔ o / 8 = bx ∧ o < g.M.toNat ∧
      a = if g.acc then add (g.out o) (coopValue g o) else coopValue g o := by
  obtain ⟨sh, hsh, hcells⟩ := shared_eq g hns bx
  unfold CoopArgs.block
  rw [hsh, Option.bind_eq_bind, Option.bind_some,
    mapM_some fun tid htid => combined_eq g hns hcells (List.mem_range.mp htid)]
  refine ⟨_, rfl, fun o a => ?_⟩
  rw [List.mem_flatten]
  -- Stores come from lane 0 of the block's rows.
  constructor
  · rintro ⟨l, hl, hmem⟩
    obtain ⟨tid, htid, rfl⟩ := List.mem_map.mp hl
    have hlt := List.mem_range.mp htid
    split at hmem
    next hrow =>
      obtain ⟨rfl, rfl⟩ := Prod.mk.inj (List.mem_singleton.mp hmem)
      exact ⟨by omega, hrow.1, rfl⟩
    next => exact absurd hmem List.not_mem_nil
  -- Row `o` is written by thread `8 * (o % 8)` of block `o / 8`.
  · rintro ⟨rfl, ho, rfl⟩
    have hrow : o / 8 * 8 + o % 8 * 8 / 8 = o := by omega
    refine ⟨_, List.mem_map.mpr ⟨o % 8 * 8, List.mem_range.mpr (by omega), rfl⟩, ?_⟩
    rw [hrow, if_pos ⟨ho, by omega⟩]
    exact List.mem_singleton.mpr rfl

/-- The launch has an outcome: every row holds its value, and the other cells are as before. -/
theorem kQ4kCoop_value (hns : g.nsuper.toNat ≤ 256) : ∃ out, kQ4kCoop g = some out ∧
    (∀ row < g.M.toNat, out row = if g.acc then add (g.out row) (coopValue g row) else coopValue g row) ∧
    ∀ o, g.M.toNat ≤ o → out o = g.out o := by
  choose stores hblock using block_eq g hns
  have hlaunch : kQ4kCoop g = some (scatter g.out ((List.range ((g.M.toNat + 7) / 8)).map stores).flatten) := by
    unfold kQ4kCoop
    rw [mapM_some fun bx _ => (hblock bx).1]
    rfl
  -- Whatever a block stores, it stores for a row of the output, with that row's value.
  have hmem : ∀ o a, (o, a) ∈ ((List.range ((g.M.toNat + 7) / 8)).map stores).flatten → o < g.M.toNat ∧
      a = if g.acc then add (g.out o) (coopValue g o) else coopValue g o := by
    intro o a h
    obtain ⟨l, hl, hs⟩ := List.mem_flatten.mp h
    obtain ⟨bx, -, rfl⟩ := List.mem_map.mp hl
    exact (((hblock bx).2 o a).mp hs).2
  refine ⟨_, hlaunch, fun row hrow => ?_, fun o ho => ?_⟩
  -- Two stores to one row agree, so their order does not matter.
  · refine scatter_stored ⟨(row, _), List.mem_flatten.mpr ⟨stores (row / 8),
      List.mem_map.mpr ⟨row / 8, List.mem_range.mpr (by omega), rfl⟩, ((hblock _).2 _ _).mpr ⟨rfl, hrow, rfl⟩⟩, rfl⟩ ?_
    rintro ⟨o, a⟩ hs rfl
    exact (hmem o a hs).2
  · refine scatter_outside ?_
    rintro ⟨o', a⟩ hs rfl
    exact absurd (hmem o' a hs).1 (by omega)

/-! ### The row on the CPU -/

namespace CoopArgs

/-- The activations, and the bytes of a row. -/
def activations : List F :=
  (List.range (g.nsuper.toNat * 256)).map g.x

omit [F32 F] in
def rowBytes (row : Nat) : List UInt8 :=
  (List.range (g.nsuper.toNat * 144)).map fun i => g.w (row * g.nsuper.toNat * 144 + i)

end CoopArgs

/-- Position `p` of a super-block holds the decoder's element. -/
theorem term_eq (wrow : Nat → UInt8) (b : Nat) {p : Nat} (hp : p < 256) :
    g.term wrow b p = mul (g.x (b * 256 + p))
      ((q4kCodes (Vector.ofFn fun i : Fin 144 => wrow (b * 144 + i.val))).element ⟨p, hp⟩) := by
  have hpair : p / 64 * 2 + p % 64 / 32 = p / 32 := by omega
  have hbyte : 16 + (p / 64 * 32 + p % 64 % 32) = 16 + 32 * (p / 64) + p % 32 := by omega
  have hj : p / 32 < 8 := by omega
  have hscales : Device.getScaleMinK4 (p / 32) (fun i => wrow (b * 144 + (4 + i))) =
      -- The scale pairs are unpacked alike on both sides.
      getScaleMinK4 ⟨p / 32, hj⟩ (q4kScales (Vector.ofFn fun i : Fin 144 => wrow (b * 144 + i.val))) := by
    unfold Device.getScaleMinK4 getScaleMinK4 q4kScales
    simp only [Vector.getElem_ofFn]
    by_cases h : p / 32 < 4
    · rw [if_pos h, dif_pos h]
    · rw [if_neg h, dif_neg h]
  unfold CoopArgs.term Q4kCodes.element Q4kCodes.scale Q4kCodes.min Q4kCodes.code q4kCodes scalePairs q4kNibble
  dsimp only
  rw [hpair, hscales, hbyte]
  -- Which nibble of the byte, on both sides, is decided by the half of the 64.
  by_cases hhalf : p % 64 < 32
  · have hzero : p % 64 / 32 = 0 := by omega
    rw [if_pos hzero, if_pos hhalf]
    simp only [Vector.getElem_ofFn]
    rfl
  · have hone : ¬p % 64 / 32 = 0 := by omega
    rw [if_neg hone, if_neg hhalf]
    simp only [Vector.getElem_ofFn]
    rfl

theorem row_eq (row : Nat) : canonicalDotQ4kFused g.activations (g.rowBytes row) (g.nsuper.toNat * 256) =
    .ok (coopValue g row) := by
  have hx : g.activations.length = g.nsuper.toNat * 256 := by
    unfold CoopArgs.activations
    rw [List.length_map, List.length_range]
  have hw : (g.rowBytes row).length = g.nsuper.toNat * 144 := by
    unfold CoopArgs.rowBytes
    rw [List.length_map, List.length_range]
  -- The row is `nsuper` blocks of 144 bytes, decoding to 256 values each.
  have hcount : (g.rowBytes row).length / 144 = g.nsuper.toNat := by
    rw [hw, Nat.mul_div_cancel _ (by decide)]
  have hdecoded : ((blocksOf 144 (g.rowBytes row)).flatMap (q4kWeights : _ → List F)).length = g.nsuper.toNat * 256 := by
    rw [List.length_flatMap, List.map_congr_left fun b _ => length_q4kWeights b, List.map_const',
      List.sum_replicate_nat, length_blocksOf, hcount]
  rw [canonicalDotQ4kFused_eq (by omega) (by rw [hw, Nat.mul_mod_left]) (by rw [hcount]),
    canonicalDot_value (by omega) (by omega)]
  refine congrArg Except.ok (canonicalValue_congr fun i hi => ?_)
  -- Element `i` lies in block `i / 256` at place `i % 256`.
  have hblock : i / 256 < (blocksOf 144 (g.rowBytes row)).length := by
    rw [length_blocksOf, hcount]
    omega
  have hsplit : i = i / 256 * 256 + i % 256 := by omega
  have hplace : i % 256 < 256 := Nat.mod_lt _ (by decide)
  have hweight : ((blocksOf 144 (g.rowBytes row)).flatMap (q4kWeights : _ → List F))[i]? =
      some ((q4kCodes (blocksOf 144 (g.rowBytes row))[i / 256]).element ⟨i % 256, hplace⟩) := by
    conv_lhs => rw [hsplit]
    rw [getElem?_flatMap length_q4kWeights _ _ hplace, List.getElem?_eq_getElem hblock, Option.bind_some]
    exact q4kWeights_element _ ⟨i % 256, hplace⟩
  -- Block by block, the row's bytes are the ones the kernel reads.
  have hbytes : (blocksOf 144 (g.rowBytes row))[i / 256] =
      Vector.ofFn fun k : Fin 144 => g.w (row * g.nsuper.toNat * 144 + (i / 256 * 144 + k.val)) := by
    refine Vector.ext fun k hk => ?_
    simp only [blocksOf, CoopArgs.rowBytes, List.getElem_ofFn, Vector.getElem_ofFn, List.get_eq_getElem, List.getElem_map,
      List.getElem_range]
  have hactivation : g.activations[i]? = some (g.x i) := by
    unfold CoopArgs.activations
    rw [List.getElem?_map, List.getElem?_range hi]
    rfl
  unfold productOf rowTerm
  rw [List.getD_eq_getElem?_getD, List.getD_eq_getElem?_getD, hweight, hactivation, hbytes, term_eq g _ _ hplace,
    ← hsplit]
  rfl

/-- `k_q4k_coop` gives every row the canonical dot product of the CPU, on top of the old output with `acc`,
and stores nothing else. It reads no cell of its shared table before a thread stores to it. -/
theorem kQ4kCoop_eq_fused (hns : g.nsuper.toNat ≤ 256) : ∃ out, kQ4kCoop g = some out ∧
    (∀ row < g.M.toNat, ∃ v, canonicalDotQ4kFused g.activations (g.rowBytes row) (256 * g.nsuper.toNat) = .ok v ∧
      out row = if g.acc then add (g.out row) v else v) ∧
    ∀ o, g.M.toNat ≤ o → out o = g.out o := by
  obtain ⟨out, hout, hrows, hrest⟩ := kQ4kCoop_value g hns
  refine ⟨out, hout, fun row hrow => ⟨coopValue g row, ?_, hrows row hrow⟩, hrest⟩
  rw [Nat.mul_comm 256]
  exact row_eq g row

end

/-- Three rows of 40 super-blocks: a ragged block of rows, and a partial last chunk. -/
def raggedArgs : CoopArgs Cost :=
  ⟨fun i => ⟨i⟩, fun i => UInt8.ofNat i, fun o => ⟨o⟩, 3, 40, true⟩

theorem kQ4kCoop_eq_fused_ragged : ∃ out, kQ4kCoop raggedArgs = some out ∧
    (∀ row < raggedArgs.M.toNat, ∃ v, canonicalDotQ4kFused raggedArgs.activations (raggedArgs.rowBytes row)
        (256 * raggedArgs.nsuper.toNat) = .ok v ∧
      out row = if raggedArgs.acc then add (raggedArgs.out row) v else v) ∧
    ∀ o, raggedArgs.M.toNat ≤ o → out o = raggedArgs.out o :=
  kQ4kCoop_eq_fused raggedArgs (by decide)

end Cuda.Coop

end VitniTensor
