import VitniTensor.Gpu.Gemm

/-!
# The tiled GEMMs agree with the CPU

A thread's patch cell adds, for every super-block, what the CPU adds for its row and token.
-/

open F32

namespace VitniTensor

open Outcome Loop Scatter

open Cuda.Device

namespace Cuda

variable {F : Type} [F32 F]

/-! ### What the CPU computes from the same buffers -/

namespace GemmArgs

variable (g : GemmArgs F)

/-- The bytes of row `m`. -/
def rowBytes (size m : Nat) : List UInt8 :=
  (List.range (g.ns.toNat * size)).map fun i => g.w (m * g.ns.toNat * size + i)

/-- Super-block `s` of token `n`, and all of the token. -/
def tokenBlock (n s : Nat) : Q8Block F where
  d := g.dx (n * g.ns.toNat + s)
  qs := Vector.ofFn fun i => g.xq ((n * g.ns.toNat + s) * 256 + i.val)
  bsums := Vector.ofFn fun k => g.bsums ((n * g.ns.toNat + s) * 8 + k.val)

def tokenBlocks (n : Nat) : List (Q8Block F) :=
  (List.range g.ns.toNat).map (g.tokenBlock n)

/-- The block behind a pointer. -/
def blockAt (size wr s : Nat) : Vector UInt8 size :=
  Vector.ofFn fun i => g.blk size wr s i.val

/-- The running sums of row `m` for token `n`. -/
def rowQ4k (n m : Nat) : Res F :=
  runningRow dotQ4kQ8Block g.ns.toNat (g.tokenBlocks n) (g.rowBytes 144 m)

def rowQ6k (n m : Nat) : Res F :=
  runningRow dotQ6kQ8Block g.ns.toNat (g.tokenBlocks n) (g.rowBytes 210 m)

/-- The output holds the rows' values for all tokens, over the old ones with `acc`, and is otherwise as
before. A row has a value unless its sums overflow on the CPU, which no activations from a quantizer make
them do. -/
structure Computes (row : Nat → Nat → Res F) (out : Nat → F) : Prop where
  stored : ∀ n < g.N.toNat, ∀ m < g.M.toNat, ∀ v, row n m = .ok v →
    out (n * g.M.toNat + m) = if g.acc then add (g.out (n * g.M.toNat + m)) v else v
  outside : ∀ o, (∀ n < g.N.toNat, ∀ m < g.M.toNat, o ≠ n * g.M.toNat + m) → out o = g.out o
  defined : ∀ n, (∀ s < g.ns.toNat, (g.tokenBlock n s).Bounded) → ∀ m, ∃ v, row n m = .ok v

omit [F32 F] in
theorem blockDot_eq {size : Nat} (hsize : 0 < size) (hfits : g.ns.toNat * size < 2 ^ 32)
    (dot : Vector UInt8 size → Q8Block F → Nat → Res F) {n m s : Nat} (hs : s < g.ns.toNat) :
    blockDot dot (g.tokenBlocks n) (g.rowBytes size m) s = dot (g.blockAt size m s) (g.tokenBlock n s) 256 := by
  have hlength : (g.rowBytes size m).length = g.ns.toNat * size := by
    unfold rowBytes
    rw [List.length_map, List.length_range]
  have hblocks : s < (blocksOf size (g.rowBytes size m)).length := by
    rw [length_blocksOf, hlength, Nat.mul_div_cancel _ hsize]
    exact hs
  have htokens : s < (g.tokenBlocks n).length := by
    unfold tokenBlocks
    rw [List.length_map, List.length_range]
    exact hs
  have hoffset : s * size % 2 ^ 32 = s * size :=
    Nat.mod_eq_of_lt (Nat.lt_of_le_of_lt (Nat.mul_le_mul_right size (Nat.le_of_lt hs)) hfits)
  have hblock : (blocksOf size (g.rowBytes size m))[s] = g.blockAt size m s := by
    refine Vector.ext fun i hi => ?_
    simp only [blocksOf, rowBytes, blockAt, blk, List.getElem_ofFn, Vector.getElem_ofFn, List.get_eq_getElem,
      List.getElem_map, List.getElem_range, hoffset, Nat.add_assoc]
  have htoken : (g.tokenBlocks n)[s] = g.tokenBlock n s := by
    simp only [tokenBlocks, List.getElem_map, List.getElem_range]
  unfold blockDot
  rw [index_of_lt hblocks, ok_bind, index_of_lt htokens, ok_bind, hblock, htoken]

/-- A row that goes through is a running sum of the parts. -/
theorem runningRow_eq {size : Nat} (hsize : 0 < size) (hfits : g.ns.toNat * size < 2 ^ 32)
    {dot : Vector UInt8 size → Q8Block F → Nat → Res F} {n m : Nat} {v : F} {part : Nat → F}
    (hpart : ∀ s < g.ns.toNat, ∀ p, dot (g.blockAt size m s) (g.tokenBlock n s) 256 = .ok p → p = part s)
    (h : runningRow dot g.ns.toNat (g.tokenBlocks n) (g.rowBytes size m) = .ok v) :
    v = loop g.ns.toNat (fun s sum => add sum (part s)) zero := by
  refine forRange_eq_loop (fun s hs sum t ht => ?_) h
  obtain ⟨p, hp, ht⟩ := bind_eq_ok.mp ht
  rw [g.blockDot_eq hsize hfits dot hs] at hp
  cases ht
  rw [hpart s hs p hp]

/-- Activations within the range of the quantizers make every row go through. -/
theorem runningRow_ok {size : Nat} (hsize : 0 < size) (hfits : g.ns.toNat * size < 2 ^ 32)
    {dot : Vector UInt8 size → Q8Block F → Nat → Res F}
    (hdot : ∀ w {q : Q8Block F}, q.Bounded → ∀ n, ∃ v, dot w q n = .ok v) {n : Nat} (m : Nat)
    (hbounded : ∀ s < g.ns.toNat, (g.tokenBlock n s).Bounded) :
    ∃ v, runningRow dot g.ns.toNat (g.tokenBlocks n) (g.rowBytes size m) = .ok v := by
  obtain ⟨v, hv, -⟩ := @forFrom_ok Error F (fun _ _ => True) 0 g.ns.toNat
    (fun s sum => do
      let p ← blockDot dot (g.tokenBlocks n) (g.rowBytes size m) s
      pure (add sum p)) zero trivial (by
    intro s sum _ hs _
    obtain ⟨p, hp⟩ := hdot (g.blockAt size m s) (hbounded s (by omega)) 256
    rw [g.blockDot_eq hsize hfits dot (by omega), hp, ok_bind]
    exact ⟨_, rfl, trivial⟩)
  exact ⟨v, hv⟩

end GemmArgs

/-! ### The launch -/

/-- Every output of the tiles is stored, from the one thread and patch cell that own it, and no other. -/
theorem launch_eq (g : GemmArgs F) {outr : Nat → Nat → Nat → Nat → Nat → F} {v : Nat → Nat → F}
    (houtr : ∀ bx by' tid a b, tid < 256 → a < 4 → b < 4 → bx * 64 + (tid / 16 * 4 + a) < g.M.toNat →
      by' * 64 + (tid % 16 * 4 + b) < g.N.toNat →
      outr bx by' tid a b = v (by' * 64 + (tid % 16 * 4 + b)) (bx * 64 + (tid / 16 * 4 + a))) :
    (∀ n < g.N.toNat, ∀ m < g.M.toNat, g.launch outr (n * g.M.toNat + m) =
      if g.acc then add (g.out (n * g.M.toNat + m)) (v n m) else v n m) ∧
    ∀ o, (∀ n < g.N.toNat, ∀ m < g.M.toNat, o ≠ n * g.M.toNat + m) → g.launch outr o = g.out o := by
  -- a store is that of a cell of the output, with the value of the cell
  have hstores : ∀ o w, (o, w) ∈ ((List.range ((g.M.toNat + 63) / 64)).flatMap fun bx =>
      (List.range ((g.N.toNat + 63) / 64)).flatMap fun by' => g.tileStores bx by' (outr bx by')) ↔
      ∃ n < g.N.toNat, ∃ m < g.M.toNat, o = n * g.M.toNat + m ∧
        w = if g.acc then add (g.out o) (v n m) else v n m := by
    intro o w
    unfold GemmArgs.tileStores
    simp only [List.mem_flatMap, List.mem_range]
    constructor
    · rintro ⟨bx, hbx, by', hby, tid, htid, a, ha, b, hb, hstore⟩
      split at hstore
      next hin =>
        obtain ⟨rfl, rfl⟩ := Prod.mk.inj (List.mem_singleton.mp hstore)
        refine ⟨_, hin.2, _, hin.1, rfl, ?_⟩
        rw [houtr bx by' tid a b htid ha hb hin.1 hin.2]
      next => exact absurd hstore List.not_mem_nil
    · rintro ⟨n, hn, m, hm, rfl, rfl⟩
      have hrow : m / 64 * 64 + ((m % 64 / 4 * 16 + n % 64 / 4) / 16 * 4 + m % 4) = m := by omega
      have hcol : n / 64 * 64 + ((m % 64 / 4 * 16 + n % 64 / 4) % 16 * 4 + n % 4) = n := by omega
      refine ⟨m / 64, by omega, n / 64, by omega, m % 64 / 4 * 16 + n % 64 / 4, by omega, m % 4, by omega, n % 4,
        by omega, ?_⟩
      have hvalue := houtr (m / 64) (n / 64) (m % 64 / 4 * 16 + n % 64 / 4) (m % 4) (n % 4) (by omega) (by omega)
        (by omega) (by omega) (by omega)
      rw [hrow, hcol] at hvalue
      rw [hrow, hcol, if_pos ⟨hm, hn⟩, hvalue]
      exact List.mem_singleton.mpr rfl
  constructor
  · intro n hn m hm
    refine scatter_stored ⟨(_, _), (hstores _ _).mpr ⟨n, hn, m, hm, rfl, rfl⟩, rfl⟩ ?_
    rintro ⟨o, w⟩ hw rfl
    obtain ⟨n', hn', m', hm', hcell, hvalue⟩ := (hstores _ _).mp hw
    have hpos : 0 < g.M.toNat := by omega
    have hm_eq : m = m' := by
      have hmod := congrArg (· % g.M.toNat) hcell
      simpa [Nat.mul_add_mod', Nat.mod_eq_of_lt hm, Nat.mod_eq_of_lt hm'] using hmod
    have hn_eq : n = n' := by
      have hmul : n * g.M.toNat = n' * g.M.toNat := by omega
      exact Nat.eq_of_mul_eq_mul_right hpos hmul
    rw [hvalue, hm_eq, hn_eq]
  · intro o ho
    refine scatter_outside ?_
    rintro ⟨o', w⟩ hw rfl
    obtain ⟨n, hn, m, hm, hcell, -⟩ := (hstores _ _).mp hw
    exact ho n hn m hm hcell

/-! ### Integer sums -/

omit [F32 F] in
/-- A loop of `__dp4a` over `4 * n` bytes. -/
theorem dp4a_loop (n : Nat) (a b : Nat → Int) :
    loop n (fun k => dp4a (fun i => a (4 * k + i)) fun i => b (4 * k + i)) 0 =
      ∑ i ∈ Finset.range (n * 4), a i * b i := by
  have hadd := loop_add n (fun k => ∑ i ∈ Finset.range 4, a (4 * k + i) * b (4 * k + i)) (0 : Int)
  rw [Int.zero_add, sum_groups n 4 fun i => a i * b i] at hadd
  rw [← hadd]
  refine loop_congr fun k _ c => ?_
  simp only [dp4a, Finset.sum_range_succ, Finset.sum_range_zero, Int.zero_add, Nat.add_zero]

/-- What sub-block pair `half` adds for row `r` and token `c` of the tile. -/
def q4kTileTerms (t : Q4kTile F) (r c half : Nat) : Int × Int :=
  (((t.scsh (r, half * 2)).toNat : Int) *
        (∑ l ∈ Finset.range 32, (t.wsh (r, half * 64 + l)).toInt * (t.xsh (c, half * 64 + l)).toInt) +
      ((t.scsh (r, half * 2 + 1)).toNat : Int) *
        ∑ l ∈ Finset.range 32, (t.wsh (r, half * 64 + 32 + l)).toInt * (t.xsh (c, half * 64 + 32 + l)).toInt,
    ((t.msh (r, half * 2)).toNat : Int) * t.bsh (c, half * 2) +
      ((t.msh (r, half * 2 + 1)).toNat : Int) * t.bsh (c, half * 2 + 1))

omit [F32 F] in
theorem q4kTileSums_eq (t : Q4kTile F) (r c : Nat) :
    q4kTileSums t r c = ∑ half ∈ Finset.range 4, q4kTileTerms t r c half := by
  have hlow : ∀ half, loop 8 (fun k => dp4a (fun i => (t.wsh (r, half * 64 + (4 * k + i))).toInt)
      fun i => (t.xsh (c, half * 64 + (4 * k + i))).toInt) 0 = _ := fun half =>
    dp4a_loop 8 (fun l => (t.wsh (r, half * 64 + l)).toInt) fun l => (t.xsh (c, half * 64 + l)).toInt
  have hhigh : ∀ half, loop 8 (fun k => dp4a (fun i => (t.wsh (r, half * 64 + 32 + (4 * k + i))).toInt)
      fun i => (t.xsh (c, half * 64 + 32 + (4 * k + i))).toInt) 0 = _ := fun half =>
    dp4a_loop 8 (fun l => (t.wsh (r, half * 64 + 32 + l)).toInt) fun l => (t.xsh (c, half * 64 + 32 + l)).toInt
  unfold q4kTileSums
  dsimp only
  simp only [hlow, hhigh]
  exact (loop_add 4 (q4kTileTerms t r c) (0, 0)).trans (zero_add _)

/-! ### Staged tiles -/

section

variable (g : GemmArgs F) (bx by' s : Nat) (t : Q4kTile F)

theorem q4kStage_wsh {r e : Nat} (hr : r < 64) (he : e < 256) (hwr : bx * 64 + r < g.M.toNat) :
    ((q4kStage g bx by' s t).wsh (r, e)).toInt = if e % 64 < 32
      then lowNibble (g.blk 144 (bx * 64 + r) s (16 + (e / 64 * 32 + e % 64 % 32)))
      else highNibble (g.blk 144 (bx * 64 + r) s (16 + (e / 64 * 32 + e % 64 % 32))) := by
  have hcell := @staged_rows _ 256 64 256 r e t.wsh (fun r e => if bx * 64 + r ≥ g.M.toNat then 0 else if e % 64 < 32
    then (g.blk 144 (bx * 64 + r) s (16 + (e / 64 * 32 + e % 64 % 32)) &&& 0x0F).toInt8
    else (g.blk 144 (bx * 64 + r) s (16 + (e / 64 * 32 + e % 64 % 32)) >>> 4).toInt8) (by decide) hr he
  rw [if_neg (by omega)] at hcell
  unfold q4kStage
  dsimp only
  rw [hcell]
  split
  next => exact toInt_lowNibble _
  next => exact toInt_highNibble _

theorem q4kStage_xsh {c e : Nat} (hc : c < 64) (he : e < 256) (htc : by' * 64 + c < g.N.toNat) :
    (q4kStage g bx by' s t).xsh (c, e) = g.xq (((by' * 64 + c) * g.ns.toNat + s) * 256 + e) := by
  have hcell := @staged_rows _ 256 64 256 c e t.xsh (fun c e => if by' * 64 + c < g.N.toNat then
    g.xq (((by' * 64 + c) * g.ns.toNat + s) * 256 + e) else 0) (by decide) hc he
  rw [if_pos htc] at hcell
  unfold q4kStage
  dsimp only
  exact hcell

theorem q4kStage_scsh {r j : Nat} (hr : r < 64) (hj : j < 8) (hwr : bx * 64 + r < g.M.toNat) :
    (q4kStage g bx by' s t).scsh (r, j) = (Device.getScaleMinK4 j fun i => g.blk 144 (bx * 64 + r) s (4 + i)).1 := by
  have hcell := @staged_rows _ 256 64 8 r j t.scsh (fun r j => if bx * 64 + r ≥ g.M.toNat then 0 else
    (Device.getScaleMinK4 j fun i => g.blk 144 (bx * 64 + r) s (4 + i)).1) (by decide) hr hj
  rw [if_neg (by omega)] at hcell
  unfold q4kStage
  dsimp only
  exact hcell

theorem q4kStage_msh {r j : Nat} (hr : r < 64) (hj : j < 8) (hwr : bx * 64 + r < g.M.toNat) :
    (q4kStage g bx by' s t).msh (r, j) = (Device.getScaleMinK4 j fun i => g.blk 144 (bx * 64 + r) s (4 + i)).2 := by
  have hcell := @staged_rows _ 256 64 8 r j t.msh (fun r j => if bx * 64 + r ≥ g.M.toNat then 0 else
    (Device.getScaleMinK4 j fun i => g.blk 144 (bx * 64 + r) s (4 + i)).2) (by decide) hr hj
  rw [if_neg (by omega)] at hcell
  unfold q4kStage
  dsimp only
  exact hcell

theorem q4kStage_dxsh {c : Nat} (hc : c < 64) (htc : by' * 64 + c < g.N.toNat) :
    (q4kStage g bx by' s t).dxsh c = g.dx ((by' * 64 + c) * g.ns.toNat + s) := by
  have hcell := @staged_self _ 256 64 c t.dxsh
    (fun c => if by' * 64 + c < g.N.toNat then g.dx ((by' * 64 + c) * g.ns.toNat + s) else zero) (by decide) hc
  rw [if_pos htc] at hcell
  unfold q4kStage
  dsimp only
  exact hcell

theorem q4kStage_bsh {c k : Nat} (hc : c < 64) (hk : k < 8) (htc : by' * 64 + c < g.N.toNat) :
    (q4kStage g bx by' s t).bsh (c, k) = g.bsums (((by' * 64 + c) * g.ns.toNat + s) * 8 + k) := by
  unfold q4kStage
  dsimp only
  refine staged_cell (by decide) hc (List.mem_map.mpr ⟨k, List.mem_range.mpr hk, by rw [if_pos htc]⟩) ?_
  intro j hj w hw
  obtain ⟨k', -, hcell⟩ := List.mem_map.mp hw
  obtain ⟨hplace, rfl⟩ := Prod.mk.inj hcell
  obtain ⟨rfl, rfl⟩ := Prod.mk.inj hplace
  rw [if_pos htc]

omit [F32 F] in
theorem getScaleMinK4_blockAt (wr : Nat) {j : Nat} (hj : j < 8) :
    Device.getScaleMinK4 j (fun i => g.blk 144 wr s (4 + i)) =
      getScaleMinK4 ⟨j, hj⟩ (q4kScales (g.blockAt 144 wr s)) := by
  unfold Device.getScaleMinK4 getScaleMinK4 q4kScales GemmArgs.blockAt
  simp only [Vector.getElem_ofFn]
  by_cases h : j < 4
  · rw [if_pos h, dif_pos h]
  · rw [if_neg h, dif_neg h]

end

/-- The staged tile holds the row's block and the token's block. -/
theorem q4kStage_terms (g : GemmArgs F) {bx by' s r c half : Nat} (t : Q4kTile F) (hr : r < 64) (hc : c < 64)
    (hwr : bx * 64 + r < g.M.toNat) (htc : by' * 64 + c < g.N.toNat) (hhalf : half < 4) :
    q4kTileTerms (q4kStage g bx by' s t) r c half =
      q4kPairTerms (g.blockAt 144 (bx * 64 + r) s) (g.tokenBlock (by' * 64 + c) s) ⟨half, hhalf⟩ := by
  unfold q4kTileTerms q4kPairTerms
  rw [q4kStage_scsh g bx by' s t hr (by omega) hwr, q4kStage_scsh g bx by' s t hr (by omega) hwr,
    q4kStage_msh g bx by' s t hr (by omega) hwr, q4kStage_msh g bx by' s t hr (by omega) hwr,
    q4kStage_bsh g bx by' s t hc (by omega) htc, q4kStage_bsh g bx by' s t hc (by omega) htc,
    getScaleMinK4_blockAt g s _ (by omega), getScaleMinK4_blockAt g s _ (by omega)]
  have hlow : ∀ l < 32, ((q4kStage g bx by' s t).wsh (r, half * 64 + l)).toInt =
      lowNibble (g.blk 144 (bx * 64 + r) s (16 + 32 * half + l)) := by
    intro l hl
    have hplace : 16 + ((half * 64 + l) / 64 * 32 + (half * 64 + l) % 64 % 32) = 16 + 32 * half + l := by omega
    rw [q4kStage_wsh g bx by' s t hr (by omega) hwr, if_pos (by omega), hplace]
  have hhigh : ∀ l < 32, ((q4kStage g bx by' s t).wsh (r, half * 64 + 32 + l)).toInt =
      highNibble (g.blk 144 (bx * 64 + r) s (16 + 32 * half + l)) := by
    intro l hl
    have hplace : 16 + ((half * 64 + 32 + l) / 64 * 32 + (half * 64 + 32 + l) % 64 % 32) = 16 + 32 * half + l := by omega
    rw [q4kStage_wsh g bx by' s t hr (by omega) hwr, if_neg (by omega), hplace]
  have hlowsum : ∑ l ∈ Finset.range 32, ((q4kStage g bx by' s t).wsh (r, half * 64 + l)).toInt *
      ((q4kStage g bx by' s t).xsh (c, half * 64 + l)).toInt =
      ∑ l : Fin 32, lowNibble (g.blockAt 144 (bx * 64 + r) s)[16 + 32 * half + l.val] *
        (g.tokenBlock (by' * 64 + c) s).qs[64 * half + l.val].toInt := by
    rw [Finset.sum_range]
    refine Finset.sum_congr rfl fun l _ => ?_
    rw [hlow l l.isLt, q4kStage_xsh g bx by' s t hc (by omega) htc, Nat.mul_comm half 64]
    unfold GemmArgs.blockAt GemmArgs.tokenBlock
    simp only [Vector.getElem_ofFn]
  have hhighsum : ∑ l ∈ Finset.range 32, ((q4kStage g bx by' s t).wsh (r, half * 64 + 32 + l)).toInt *
      ((q4kStage g bx by' s t).xsh (c, half * 64 + 32 + l)).toInt =
      ∑ l : Fin 32, highNibble (g.blockAt 144 (bx * 64 + r) s)[16 + 32 * half + l.val] *
        (g.tokenBlock (by' * 64 + c) s).qs[64 * half + 32 + l.val].toInt := by
    rw [Finset.sum_range]
    refine Finset.sum_congr rfl fun l _ => ?_
    rw [hhigh l l.isLt, q4kStage_xsh g bx by' s t hc (by omega) htc, Nat.mul_comm half 64]
    unfold GemmArgs.blockAt GemmArgs.tokenBlock
    simp only [Vector.getElem_ofFn]
  rw [hlowsum, hhighsum]
  unfold GemmArgs.tokenBlock
  simp only [Vector.getElem_ofFn]

/-! ### Q4_K -/

/-- What super-block `s` adds to the output of row `m` for token `n`. -/
def q4kRsPart (g : GemmArgs F) (n m s : Nat) : F :=
  let w := g.blockAt 144 m s
  let q := g.tokenBlock n s
  sub (mul (mul (f16Le (getElem w 0 Offset.q4k_d0) (getElem w 1 Offset.q4k_d1)) q.d) (ofInt (∑ half, q4kPairTerms w q half).1))
    (mul (mul (f16Le (getElem w 2 Offset.q4k_dmin0) (getElem w 3 Offset.q4k_dmin1)) q.d) (ofInt (∑ half, q4kPairTerms w q half).2))

theorem q4kTurn_outr (g : GemmArgs F) {bx by' s tid a b : Nat} (t : Q4kTile F) (regs : Q4kRegs F) (htid : tid < 256)
    (ha : a < 4) (hb : b < 4) (hwr : bx * 64 + (tid / 16 * 4 + a) < g.M.toNat)
    (htc : by' * 64 + (tid % 16 * 4 + b) < g.N.toNat) :
    (q4kTurn g bx s (q4kStage g bx by' s t) tid regs).outr a b =
      add (regs.outr a b) (q4kRsPart g (by' * 64 + (tid % 16 * 4 + b)) (bx * 64 + (tid / 16 * 4 + a)) s) := by
  have hsums : q4kTileSums (q4kStage g bx by' s t) (tid / 16 * 4 + a) (tid % 16 * 4 + b) =
      ∑ half, q4kPairTerms (g.blockAt 144 (bx * 64 + (tid / 16 * 4 + a)) s)
        (g.tokenBlock (by' * 64 + (tid % 16 * 4 + b)) s) half := by
    rw [q4kTileSums_eq, Finset.sum_range]
    exact Finset.sum_congr rfl fun half _ => q4kStage_terms g t (by omega) (by omega) hwr htc half.isLt
  unfold q4kTurn q4kRsPart
  dsimp only
  rw [hsums, if_pos hwr, if_pos hwr, q4kStage_dxsh g bx by' s t (by omega) htc]
  unfold f16At GemmArgs.tokenBlock GemmArgs.blockAt
  simp only [Vector.getElem_ofFn]

theorem kQ4kRsGemm_computes (g : GemmArgs F) (shared : Nat → Nat → Q4kTile F) (undef : Nat → F) :
    g.Computes g.rowQ4k (kQ4kRsGemm g shared undef) := by
  have hns := g.ns_lt
  have hfits : g.ns.toNat * 144 < 2 ^ 32 := by omega
  obtain ⟨hstored, houtside⟩ := @launch_eq F _ g
    (fun bx by' tid => ((tileLoop g.ns.toNat (q4kStage g bx by') (q4kTurn g bx) (shared bx by')
      fun _ => ⟨fun _ _ => zero, undef, undef⟩).2 tid).outr)
    (fun n m => loop g.ns.toNat (fun s sum => add sum (q4kRsPart g n m s)) zero)
    fun bx by' tid a b htid ha hb hwr htc =>
      tileLoop_thread (fun regs : Q4kRegs F => regs.outr a b) _ fun s _ t regs =>
        q4kTurn_outr g t regs htid ha hb hwr htc
  refine ⟨fun n hn m hm v hv => ?_, houtside, fun n hbounded m => ?_⟩
  · have hrow := g.runningRow_eq (by decide) hfits (fun s _ p hp => dotQ4kQ8Block_full hp) hv
    exact (hstored n hn m hm).trans (by rw [hrow]; rfl)
  · exact g.runningRow_ok (by decide) hfits (fun w _ hq n => dotQ4kQ8Block_ok w hq n) m hbounded

/-! ### Q6_K -/

omit [F32 F] in
/-- The code of an element, by its half, quarter and place. -/
theorem q6kWeight_blockAt (g : GemmArgs F) (wr s : Nat) (e : Fin 256) :
    q6kWeight (g.blk 210 wr s) (e.val / 128) (e.val % 128 / 32) (e.val % 128 % 32) =
      (q6kCodes (g.blockAt 210 wr s)).code e - 32 := by
  have hquarter : e.val % 128 / 32 = e.val / 32 % 4 := by omega
  have hplace : e.val % 128 % 32 = e.val % 32 := by omega
  have hbounds := q6kCode_bounds (g.blockAt 210 wr s) ⟨e.val / 128, by omega⟩ ⟨e.val / 32 % 4, by omega⟩
    ⟨e.val % 32, by omega⟩
  have hcode : (q6kCodes (g.blockAt 210 wr s)).code e - 32 = q6kCode (g.blockAt 210 wr s) ⟨e.val / 128, by omega⟩
      ⟨e.val / 32 % 4, by omega⟩ ⟨e.val % 32, by omega⟩ := by
    unfold Q6kCodes.code q6kCodes q6kRaw
    dsimp only
    omega
  rw [hcode, hquarter, hplace]
  unfold q6kWeight q6kCode GemmArgs.blockAt
  simp only [Vector.getElem_ofFn, Nat.mul_comm _ 64, Nat.mul_comm _ 32, Nat.add_assoc]
  obtain h | h | h | h : e.val / 32 % 4 = 0 ∨ e.val / 32 % 4 = 1 ∨ e.val / 32 % 4 = 2 ∨ e.val / 32 % 4 = 3 := by omega
  · simp only [h]
  · simp only [h]
  · simp only [h]
  · simp only [h]

section

variable (g : GemmArgs F) (bx by' s : Nat) (t : Q6kTile F)

theorem q6kStage_wsh {r : Nat} (e : Fin 256) (hr : r < 64) (hwr : bx * 64 + r < g.M.toNat) :
    ((q6kStage g bx by' s t).wsh (r, e.val)).toInt = (q6kCodes (g.blockAt 210 (bx * 64 + r) s)).code e - 32 := by
  have hcell := @staged_rows _ 256 64 256 r e.val t.wsh (fun r e => if bx * 64 + r ≥ g.M.toNat then 0 else
    Int8.ofInt (q6kWeight (g.blk 210 (bx * 64 + r) s) (e / 128) (e % 128 / 32) (e % 128 % 32))) (by decide) hr e.isLt
  have hcode : 0 ≤ (q6kCodes (g.blockAt 210 (bx * 64 + r) s)).code e ∧
      (q6kCodes (g.blockAt 210 (bx * 64 + r) s)).code e < 64 := by
    have hlt := ((q6kCodes (g.blockAt 210 (bx * 64 + r) s)).2.2 e).isLt
    unfold Q6kCodes.code
    omega
  rw [if_neg (by omega), q6kWeight_blockAt] at hcell
  unfold q6kStage
  dsimp only
  rw [hcell]
  exact Int8.toInt_ofInt_of_le (by omega) (by omega)

theorem q6kStage_xsh {c e : Nat} (hc : c < 64) (he : e < 256) (htc : by' * 64 + c < g.N.toNat) :
    (q6kStage g bx by' s t).xsh (c, e) = g.xq (((by' * 64 + c) * g.ns.toNat + s) * 256 + e) := by
  have hcell := @staged_rows _ 256 64 256 c e t.xsh (fun c e => if by' * 64 + c < g.N.toNat then
    g.xq (((by' * 64 + c) * g.ns.toNat + s) * 256 + e) else 0) (by decide) hc he
  rw [if_pos htc] at hcell
  unfold q6kStage
  dsimp only
  exact hcell

theorem q6kStage_scsh {r j : Nat} (hr : r < 64) (hj : j < 16) (hwr : bx * 64 + r < g.M.toNat) :
    (q6kStage g bx by' s t).scsh (r, j) = (g.blk 210 (bx * 64 + r) s (192 + j)).toInt8 := by
  have hcell := @staged_rows _ 256 64 16 r j t.scsh (fun r j => if bx * 64 + r < g.M.toNat then
    (g.blk 210 (bx * 64 + r) s (192 + j)).toInt8 else 0) (by decide) hr hj
  rw [if_pos hwr] at hcell
  unfold q6kStage
  dsimp only
  exact hcell

theorem q6kStage_dwsh {r : Nat} (hr : r < 64) (hwr : bx * 64 + r < g.M.toNat) :
    (q6kStage g bx by' s t).dwsh r = f16At (g.blk 210 (bx * 64 + r) s) 208 := by
  have hcell := @staged_self _ 256 64 r t.dwsh
    (fun r => if bx * 64 + r < g.M.toNat then f16At (g.blk 210 (bx * 64 + r) s) 208 else zero) (by decide) hr
  rw [if_pos hwr] at hcell
  unfold q6kStage
  dsimp only
  exact hcell

theorem q6kStage_dxsh {c : Nat} (hc : c < 64) (htc : by' * 64 + c < g.N.toNat) :
    (q6kStage g bx by' s t).dxsh c = g.dx ((by' * 64 + c) * g.ns.toNat + s) := by
  have hcell := @staged_self _ 256 64 c t.dxsh
    (fun c => if by' * 64 + c < g.N.toNat then g.dx ((by' * 64 + c) * g.ns.toNat + s) else zero) (by decide) hc
  rw [if_pos htc] at hcell
  unfold q6kStage
  dsimp only
  exact hcell

end

/-- The elements of the block, sixteen to a scale. -/
theorem q6kTileSum_eq (g : GemmArgs F) {bx by' s r c : Nat} (t : Q6kTile F) (hr : r < 64) (hc : c < 64)
    (hwr : bx * 64 + r < g.M.toNat) (htc : by' * 64 + c < g.N.toNat) :
    q6kTileSum (q6kStage g bx by' s t) r c = ∑ i : Fin 256,
      (q6kCodes (g.blockAt 210 (bx * 64 + r) s)).scale i * ((q6kCodes (g.blockAt 210 (bx * 64 + r) s)).code i - 32) *
        (g.tokenBlock (by' * 64 + c) s).qs[i.val].toInt := by
  have hrun : ∀ j, loop 4 (fun k => dp4a (fun i => ((q6kStage g bx by' s t).wsh (r, j * 16 + (4 * k + i))).toInt)
      fun i => ((q6kStage g bx by' s t).xsh (c, j * 16 + (4 * k + i))).toInt) 0 = _ := fun j =>
    dp4a_loop 4 (fun i => ((q6kStage g bx by' s t).wsh (r, j * 16 + i)).toInt)
      fun i => ((q6kStage g bx by' s t).xsh (c, j * 16 + i)).toInt
  have hgroups := sum_fin_groups 16 16 fun i : Fin 256 => (q6kCodes (g.blockAt 210 (bx * 64 + r) s)).scale i *
    ((q6kCodes (g.blockAt 210 (bx * 64 + r) s)).code i - 32) * (g.tokenBlock (by' * 64 + c) s).qs[i.val].toInt
  unfold q6kTileSum
  dsimp only
  simp only [hrun]
  rw [loop_add 16 (fun j => ((q6kStage g bx by' s t).scsh (r, j)).toInt * _) 0, Int.zero_add, Finset.sum_range, hgroups]
  refine Finset.sum_congr rfl fun j _ => ?_
  rw [Finset.sum_range, Finset.mul_sum]
  refine Finset.sum_congr rfl fun i _ => ?_
  have hcell : j.val * 16 + i.val = (finProdFinEquiv (j, i) : Fin 256).val := by
    rw [finProdFinEquiv_apply_val]
    dsimp only
    omega
  have hscale : (finProdFinEquiv (j, i) : Fin 256).val / 16 = j.val := by omega
  rw [hcell, q6kStage_wsh g bx by' s t _ hr hwr, q6kStage_xsh g bx by' s t hc (Fin.isLt _) htc,
    q6kStage_scsh g bx by' s t hr j.isLt hwr, ← mul_assoc]
  unfold Q6kCodes.scale q6kCodes GemmArgs.blockAt GemmArgs.tokenBlock
  simp only [Vector.getElem_ofFn, hscale]

/-- What super-block `s` adds to the output of row `m` for token `n`. -/
def q6kRsPart (g : GemmArgs F) (n m s : Nat) : F :=
  let w := g.blockAt 210 m s
  let q := g.tokenBlock n s
  mul (mul (f16Le (getElem w 208 Offset.q6k_d0) (getElem w 209 Offset.q6k_d1)) q.d) (ofInt (∑ i : Fin 256,
    (q6kCodes w).scale i * ((q6kCodes w).code i - 32) * (getElem q.qs i.val (Offset.code i)).toInt))

theorem q6kTurn_outr (g : GemmArgs F) {bx by' s tid a b : Nat} (t : Q6kTile F) (outr : Nat → Nat → F) (htid : tid < 256)
    (ha : a < 4) (hb : b < 4) (hwr : bx * 64 + (tid / 16 * 4 + a) < g.M.toNat)
    (htc : by' * 64 + (tid % 16 * 4 + b) < g.N.toNat) :
    q6kTurn (q6kStage g bx by' s t) tid outr a b =
      add (outr a b) (q6kRsPart g (by' * 64 + (tid % 16 * 4 + b)) (bx * 64 + (tid / 16 * 4 + a)) s) := by
  unfold q6kTurn q6kRsPart
  dsimp only
  rw [q6kTileSum_eq g t (by omega) (by omega) hwr htc, q6kStage_dwsh g bx by' s t (by omega) hwr,
    q6kStage_dxsh g bx by' s t (by omega) htc]
  unfold f16At GemmArgs.tokenBlock GemmArgs.blockAt
  simp only [Vector.getElem_ofFn]

theorem dotQ6kQ8Block_full {w : Vector UInt8 210} {xq : Q8Block F} {v : F} (h : dotQ6kQ8Block w xq 256 = .ok v) :
    v = mul (mul (f16Le (getElem w 208 Offset.q6k_d0) (getElem w 209 Offset.q6k_d1)) xq.d) (ofInt (∑ i : Fin 256,
      (q6kCodes w).scale i * ((q6kCodes w).code i - 32) * (getElem xq.qs i.val (Offset.code i)).toInt)) := by
  rw [dotQ6kQ8Block_eq] at h
  obtain ⟨acc, hacc, h⟩ := bind_eq_ok.mp h
  cases h
  rw [q6kAccumulator_eq hacc, Finset.sum_filter, Finset.sum_congr rfl fun i _ => if_pos i.isLt]

theorem kQ6kRsGemm_computes (g : GemmArgs F) (shared : Nat → Nat → Q6kTile F) :
    g.Computes g.rowQ6k (kQ6kRsGemm g shared) := by
  have hns := g.ns_lt
  have hfits : g.ns.toNat * 210 < 2 ^ 32 := by omega
  obtain ⟨hstored, houtside⟩ := @launch_eq F _ g
    (fun bx by' tid => (tileLoop g.ns.toNat (q6kStage g bx by') (fun _ => q6kTurn) (shared bx by') fun _ _ _ => zero).2 tid)
    (fun n m => loop g.ns.toNat (fun s sum => add sum (q6kRsPart g n m s)) zero)
    fun bx by' tid a b htid ha hb hwr htc =>
      tileLoop_thread (fun outr : Nat → Nat → F => outr a b) _ fun s _ t outr =>
        q6kTurn_outr g t outr htid ha hb hwr htc
  refine ⟨fun n hn m hm v hv => ?_, houtside, fun n hbounded m => ?_⟩
  · have hrow := g.runningRow_eq (by decide) hfits (fun s _ p hp => dotQ6kQ8Block_full hp) hv
    exact (hstored n hn m hm).trans (by rw [hrow]; rfl)
  · exact g.runningRow_ok (by decide) hfits (fun w _ hq n => dotQ6kQ8Block_ok w hq n) m hbounded

/-- The tiled GEMMs compute the running sums of the CPU, whatever the shared arrays and the registers held. -/
theorem tiled_gemms_eq_rows (g : GemmArgs F) (shared₄ : Nat → Nat → Q4kTile F) (shared₆ : Nat → Nat → Q6kTile F)
    (undef : Nat → F) :
    g.Computes g.rowQ4k (kQ4kRsGemm g shared₄ undef) ∧ g.Computes g.rowQ6k (kQ6kRsGemm g shared₆) :=
  ⟨kQ4kRsGemm_computes g shared₄ undef, kQ6kRsGemm_computes g shared₆⟩

/-- Two super-blocks to a row, and the last tiles cut off after six rows and two tokens. -/
def raggedArgs : GemmArgs Cost where
  w i := UInt8.ofNat (i * 7)
  dx n := ⟨n⟩
  xq i := Int8.ofInt ((i % 13 : Nat) - 6)
  bsums i := (i % 5 : Nat) - 2
  out i := ⟨i⟩
  M := 70
  N := 66
  ns := 2
  acc := true
  ns_lt := by decide

theorem raggedArgs_bounded (n s : Nat) : (raggedArgs.tokenBlock n s).Bounded := by
  constructor
  · intro i hi
    have hcode : ∀ j : Nat, (Int8.ofInt ((j % 13 : Nat) - 6)).toInt.natAbs ≤ 127 := by
      intro j
      have hsize : Int8.size = 256 := rfl
      rw [Int8.toInt_ofInt, Int.bmod_def, hsize]
      split <;> omega
    simp only [GemmArgs.tokenBlock, Vector.getElem_ofFn]
    exact hcode _
  · intro k hk
    have hsum : ∀ j : Nat, (((j % 5 : Nat) : Int) - 2).natAbs ≤ 4064 := by omega
    simp only [GemmArgs.tokenBlock, Vector.getElem_ofFn]
    exact hsum _

/-- Shared arrays with something in them. -/
def staleQ4k : Q4kTile Cost :=
  ⟨fun _ => 1, fun _ => 2, fun _ => 3, fun _ => 4, fun _ => ⟨5⟩, fun _ => 6⟩

def staleQ6k : Q6kTile Cost :=
  ⟨fun _ => 1, fun _ => 2, fun _ => 3, fun _ => ⟨4⟩, fun _ => ⟨5⟩⟩

/-- The last row of the last token, added to what was there. -/
theorem tiled_gemms_eq_rows_ragged :
    (∃ v, raggedArgs.rowQ4k 65 69 = .ok v ∧
        kQ4kRsGemm raggedArgs (fun _ _ => staleQ4k) (fun i => ⟨i⟩) (65 * 70 + 69) =
          add (raggedArgs.out (65 * 70 + 69)) v) ∧
      ∃ v, raggedArgs.rowQ6k 65 69 = .ok v ∧
        kQ6kRsGemm raggedArgs (fun _ _ => staleQ6k) (65 * 70 + 69) = add (raggedArgs.out (65 * 70 + 69)) v := by
  obtain ⟨hq4k, hq6k⟩ := tiled_gemms_eq_rows raggedArgs (fun _ _ => staleQ4k) (fun _ _ => staleQ6k) fun i => ⟨i⟩
  obtain ⟨v₄, hv₄⟩ := hq4k.defined 65 (fun s _ => raggedArgs_bounded 65 s) 69
  obtain ⟨v₆, hv₆⟩ := hq6k.defined 65 (fun s _ => raggedArgs_bounded 65 s) 69
  exact ⟨⟨v₄, hv₄, hq4k.stored 65 (by decide) 69 (by decide) v₄ hv₄⟩,
    v₆, hv₆, hq6k.stored 65 (by decide) 69 (by decide) v₆ hv₆⟩

end Cuda

end VitniTensor
