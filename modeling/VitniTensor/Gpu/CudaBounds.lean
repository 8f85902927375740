import VitniTensor.Gpu.Cuda
import VitniTensor.Gpu.Kernels

/-!
# Fixed storage of the CUDA kernels

The subscripts that a launch computes of the arrays `scores[4096]`, `parts[256]`, `chunk_sums[64]`,
`sh[8][8][8]` and `cs[8]`, and of the KV cache, and the sizes that keep them inside, whatever `int`s the
host passes.
-/

namespace VitniTensor

open Outcome Subscript Gpu

variable {F : Type}

namespace Cuda

/-! ### The kernels -/

/-- A cell of a buffer; those of the caches are counted. -/
def cell (kvCells : Nat) (p : Ptr) (i : Nat) : Res Unit :=
  match p.buf with
  | .keyc _ | .valc _ => touch kvCells (p.off + i)
  | _ => .ok ()

/-- The threads of a launch that are not past `n`. -/
def threads (l : Launch F) (n : UInt32) (f : Nat → Res Unit) : Res Unit :=
  sweep (l.grid * l.block) fun gid => if gid ≥ n.toNat then .ok () else f gid

/-- One lane of a row: `sh[rrow][lane][nch]` after every 32 super-blocks, and after the last. -/
def coopLane (nsuper : UInt32) : Res (Nat × Nat) :=
  forRange nsuper.toNat (fun b s => do
    let sbInChunk := s.1 + 1
    if sbInChunk = 32 ∨ b = nsuper.toNat - 1 then do
      let nch ← push 8 s.2
      pure (0, nch)
    else pure (sbInChunk, s.2)) (0, 0)

/-- The thread of lane 0: `sh[rrow][j][c]` and `cs[c]` for every chunk, and the tree over them. -/
def coopSums (nsuper : UInt32) : Res Unit := do
  let nchTotal := ((nsuper + 31) / 32).toNat
  sweep nchTotal fun c => do
    sweep 8 fun _ => touch 8 c
    touch 8 c
  Gpu.fixedTree 8 nchTotal

/-- `k_q4k_coop`, row by row: its lanes, and after the barrier its sums. -/
def kQ4kCoop (nsuper : UInt32) : Res Unit := do
  sweep 8 fun _ => do
    let _ ← coopLane nsuper
    pure ()
  coopSums nsuper

/-- `q6k_dot_pre` -/
def q6kDotPre (nsuper : UInt32) : Res Unit :=
  superBlockParts 256 nsuper

def q80Row (k : UInt32) : Res Unit :=
  chunkSums 64 k

def q50Row (k : UInt32) : Res Unit :=
  chunkSums 64 k

/-- `k_attention`, one head. What a division by zero yields is not defined. -/
def kAttention (kvCells : Nat) (headSize kvDim kvMul pos : UInt32) (h : Nat) : Res Unit :=
  if kvMul = 0 then panic .divideByZero
  else
    let kvhead := UInt32.ofNat h / kvMul
    let row (t dd : Nat) : Res Unit :=
      touch kvCells (UInt32.ofNat t * kvDim + kvhead * headSize + UInt32.ofNat dd).toNat
    headScores 4096 headSize (pos + 1) row row

/-- `k_rope` and `k_rope_neox`, one head. -/
def kRope (kvCells : Nat) (neox : Bool) (x : Ptr) (headDim : UInt32) (gid : Nat) : Res Unit :=
  let hd := headDim / 2
  let headOff := UInt32.ofNat gid * headDim
  sweep hd.toNat fun i => do
    if neox then do
      cell kvCells x (headOff + UInt32.ofNat i).toNat
      cell kvCells x (headOff + UInt32.ofNat i + hd).toNat
    else do
      cell kvCells x (headOff + 2 * UInt32.ofNat i).toNat
      cell kvCells x (headOff + 2 * UInt32.ofNat i + 1).toNat

/-- The subscripts of a launch, thread by thread. The kernels that are left out have lanes and group
sums only, which are indexed by constant loops, and write to scratch. -/
def Launch.subscripts (kvCells : Nat) (l : Launch F) : Res Unit :=
  -- One arm a kernel: the subscripts its threads may form, the rest bound by construction.
  match l.kernel with
  | .q4kCoop _ _ out _ m nsuper _ => sweep (l.grid * 8) fun row =>
      if row ≥ m.toNat then .ok () else do
        kQ4kCoop nsuper
        cell kvCells out row
  | .q6kDot _ _ out _ m nsuper => threads l m fun gid => do
      q6kDotPre nsuper
      cell kvCells out gid
  | .q80 _ _ _ out k m => threads l m fun gid => do
      q80Row k
      cell kvCells out gid
  | .q50 _ _ _ out k m => threads l m fun gid => do
      q50Row k
      cell kvCells out gid
  | .q4kRs _ out m _ _ => threads l m (cell kvCells out)
  | .q6kRs _ out m _ _ => threads l m (cell kvCells out)
  | .addBias v _ n => threads l n (cell kvCells v)
  | .rope neox x seq nHeads headDim => threads l (seq * nHeads) (kRope kvCells neox x headDim)
  | .attention _ _ _ _ nHeads headSize kvDim kvMul pos =>
      threads l nHeads (kAttention kvCells headSize kvDim kvMul pos)
  | _ => .ok ()

/-! ### Bounds -/

/-- The first `n` cells from `p` on are there. -/
def Within (kvCells : Nat) (p : Ptr) (n : Nat) : Prop :=
  ∀ i < n, cell kvCells p i = .ok ()

/-- A pointer into a cache. -/
def Ptr.Cached (p : Ptr) : Prop :=
  ∃ layer, p.buf = .keyc layer ∨ p.buf = .valc layer

theorem cell_cached {kvCells i : Nat} {p : Ptr} (hp : p.Cached) : cell kvCells p i = .ok () ↔ p.off + i < kvCells := by
  obtain ⟨layer, hbuf | hbuf⟩ := hp <;> simp [cell, hbuf]

/-- Scratch is not counted. -/
theorem cell_scratch {kvCells i : Nat} {p : Ptr} (hp : ¬p.Cached) : cell kvCells p i = .ok () := by
  unfold cell
  split
  next layer hbuf => exact absurd ⟨layer, .inl hbuf⟩ hp
  next layer hbuf => exact absurd ⟨layer, .inr hbuf⟩ hp
  next => rfl

theorem within_cached {kvCells : Nat} {p : Ptr} {n : Nat} (hp : p.Cached) :
    Within kvCells p n ↔ (0 < n → p.off + n ≤ kvCells) := by
  unfold Within
  simp only [cell_cached hp]
  constructor
  · intro h hpos
    have hlast := h (n - 1) (by omega)
    omega
  · intro h i hi
    have hall := h (by omega)
    omega

theorem within_scratch {kvCells : Nat} {p : Ptr} {n : Nat} (hp : ¬p.Cached) : Within kvCells p n :=
  fun _ _ => cell_scratch hp

/-- `len` cells behind `off`, from the unsigned subscript `start` on, are among the first `cells`. A
subscript that passes `2^32` starts again at 0. -/
def SpanFits (cells off start len : Nat) : Prop :=
  0 < len → off + min (start % 2 ^ 32 + len) (2 ^ 32) ≤ cells

theorem spanFits_iff {cells off start len : Nat} :
    (∀ j < len, off + (start + j) % 2 ^ 32 < cells) ↔ SpanFits cells off start len := by
  unfold SpanFits
  constructor
  · intro h hsome
    -- the largest subscript is the last one, or the last one before 0
    by_cases hwrap : start % 2 ^ 32 + len ≤ 2 ^ 32
    · have hlast := h (len - 1) (by omega)
      omega
    · have hlast := h (2 ^ 32 - 1 - start % 2 ^ 32) (by omega)
      omega
  · intro h j hj
    have hall := h (by omega)
    omega

/-! ### Threads -/

/-- The threads of a launch over `m` that do something. -/
def rows (m : Int) : Nat :=
  if 0 < m then (unsigned m).toNat else 0

theorem toNat_unsigned_le {m : Int} (hm : 0 ≤ m) : (unsigned m).toNat ≤ m.toNat := by
  unfold unsigned
  rw [UInt32.toNat_ofNat']
  omega

theorem rows_lt (m : Int) : rows m < 2 ^ 32 := by
  unfold rows
  split
  next => exact UInt32.toNat_lt _
  next => decide

/-- A grid has a thread for every row, and is empty where there is none. -/
theorem lt_rows {m per : Int} {gid : Nat} (hper : 0 < per) :
    (gid < gridFor m per * per.toNat ∧ gid < (unsigned m).toNat) ↔ gid < rows m := by
  unfold rows gridFor
  -- A positive size: the blocks cover every row, and the kernel's test cuts off the rest.
  by_cases hm : 0 < m
  · rw [if_pos hm]
    apply and_iff_right_of_imp
    intro hgid
    have hle := toNat_unsigned_le (Int.le_of_lt hm)
    have hdiv := Int.ediv_mul_add_emod (m + (per - 1)) per
    have hrest := Int.emod_lt_of_pos (m + (per - 1)) hper
    have hnonneg : 0 ≤ (m + (per - 1)) / per := Int.ediv_nonneg (by omega) (by omega)
    rw [Int.tdiv_eq_ediv_of_nonneg (by omega), ← Int.toNat_mul hnonneg (by omega)]
    omega
  -- None launched for an empty one: the quotient rounds to zero or below.
  · rw [if_neg hm]
    refine iff_of_false (fun h => ?_) (Nat.not_lt_zero gid)
    have hempty : ((m + (per - 1)).tdiv per).toNat = 0 := by
      rcases Int.le_total 0 (m + (per - 1)) with hsign | hsign
      · rw [Int.tdiv_eq_ediv_of_nonneg hsign, Int.ediv_eq_zero_of_lt hsign (by omega)]
        rfl
      · have hneg := Int.tdiv_nonneg (Int.neg_nonneg_of_nonpos hsign) (Int.le_of_lt hper)
        rw [Int.neg_tdiv] at hneg
        omega
    rw [hempty, Nat.zero_mul] at h
    exact Nat.not_lt_zero gid h.1

theorem threads_ok {m per : Int} {block : Nat} {kernel : Kernel F} {f : Nat → Res Unit} (hper : 0 < per)
    (hblock : block = per.toNat) :
    threads (⟨gridFor m per, block, kernel⟩ : Launch F) (unsigned m) f = .ok () ↔ ∀ gid < rows m, f gid = .ok () := by
  unfold threads
  rw [sweep_ok, hblock]
  constructor
  · intro h gid hgid
    obtain ⟨hlaunched, hrow⟩ := (lt_rows hper).mpr hgid
    -- A thread past the rows returns before it touches anything.
    have hrun := h gid hlaunched
    rw [if_neg (by omega)] at hrun
    exact hrun
  · intro h gid hgid
    split
    next => rfl
    next hrow => exact h gid ((lt_rows hper).mp ⟨hgid, by omega⟩)

/-- A lane after some of its super-blocks, the last one not among them. -/
private theorem coopLane_upTo {n b : Nat} (hb : b ≤ n - 1) :
    forRange b (fun b s => do
      let sbInChunk := s.1 + 1
      if sbInChunk = 32 ∨ b = n - 1 then do
        let nch ← push 8 s.2
        pure (0, nch)
      else pure (sbInChunk, s.2)) (0, 0) =
    if b / 32 ≤ 8 then (.ok (b % 32, b / 32) : Res (Nat × Nat)) else panic .outOfRange := by
  -- Induction on the superblocks before the last, each of which closes a chunk or not.
  induction b with
  | zero => rfl
  | succ b ih =>
    rw [forRange, forFrom_succ_last, ← forRange, ih (by omega), Nat.zero_add]
    have hlast : ¬b = n - 1 := by omega
    by_cases hroom : b / 32 ≤ 8
    · rw [if_pos hroom, ok_bind]
      by_cases hchunk : b % 32 + 1 = 32
      · simp only [hchunk, true_or, if_true]
        unfold push
        have hnext : (b + 1) / 32 = b / 32 + 1 ∧ (b + 1) % 32 = 0 := by omega
        -- The eighth chunk is the last the array has room for.
        by_cases hsum : b / 32 < 8
        · rw [if_pos hsum, ok_bind, if_pos (by omega), hnext.1, hnext.2]
          rfl
        · rw [if_neg hsum, error_bind, if_neg (by omega)]
      · simp only [hchunk, hlast, or_self, if_false]
        have hnext : (b + 1) / 32 = b / 32 ∧ (b + 1) % 32 = b % 32 + 1 := by omega
        rw [if_pos (by omega), hnext.1, hnext.2]
        rfl
    · rw [if_neg hroom, error_bind, if_neg (by omega)]

theorem coopLane_ok {nsuper : UInt32} : (∃ s, coopLane nsuper = .ok s) ↔ nsuper.toNat ≤ 256 := by
  unfold coopLane
  generalize nsuper.toNat = n
  cases n with
  | zero => exact iff_of_true ⟨_, rfl⟩ (Nat.zero_le _)
  | succ n =>
    rw [forRange, forFrom_succ_last, ← forRange, @coopLane_upTo (n + 1) n (Nat.le_refl n), Nat.zero_add]
    by_cases hroom : n / 32 ≤ 8
    -- The last superblock closes its chunk whatever its place in it.
    · have hlast : n = n + 1 - 1 := rfl
      rw [if_pos hroom, ok_bind]
      simp only [← hlast, or_true, if_true]
      unfold push
      by_cases hsum : n / 32 < 8
      · rw [if_pos hsum]
        exact iff_of_true ⟨_, rfl⟩ (by omega)
      · rw [if_neg hsum]
        exact iff_of_false (by rintro ⟨s, h⟩; cases h) (by omega)
    · rw [if_neg hroom]
      exact iff_of_false (by rintro ⟨s, h⟩; cases h) (by omega)

theorem kQ4kCoop_ok {nsuper : UInt32} : kQ4kCoop nsuper = .ok () ↔ nsuper.toNat ≤ 256 := by
  have hlane : (do
      let _ ← coopLane nsuper
      pure () : Res Unit) = .ok () ↔ nsuper.toNat ≤ 256 := by
    rw [← coopLane_ok, bind_eq_ok]
    exact exists_congr fun s => and_iff_left rfl
  unfold kQ4kCoop
  rw [then_ok, sweep_ok]
  -- Every lane has to fit; one of them already says so.
  constructor
  · rintro ⟨hlanes, -⟩
    exact hlane.mp (hlanes 0 (by decide))
  -- With at most 256 superblocks, rounding up to chunks does not wrap.
  · intro h
    have htotal : ((nsuper + 31) / 32).toNat = (nsuper.toNat + 31) / 32 := by
      have hround : (31 : UInt32).toNat = 31 := rfl
      have hchunk : (32 : UInt32).toNat = 32 := rfl
      rw [UInt32.toNat_div, UInt32.toNat_add, hround, hchunk, Nat.mod_eq_of_lt (by omega)]
    refine ⟨fun _ _ => hlane.mpr h, ?_⟩
    unfold coopSums
    rw [htotal]
    simp only [then_ok, sweep_ok, touch_ok]
    exact ⟨fun c hc => ⟨fun _ _ => by omega, by omega⟩, Gpu.fixedTree_ok (by omega)⟩

theorem kAttention_ok {kvCells : Nat} {headSize kvDim kvMul pos : UInt32} {h : Nat} :
    kAttention kvCells headSize kvDim kvMul pos h = .ok () ↔ kvMul ≠ 0 ∧ (pos + 1).toNat ≤ 4096 ∧
      ∀ t < (pos + 1).toNat, ∀ dd < headSize.toNat,
        (UInt32.ofNat t * kvDim + UInt32.ofNat h / kvMul * headSize + UInt32.ofNat dd).toNat < kvCells := by
  unfold kAttention
  split
  next hzero => simp [hzero]
  next hmul =>
    rw [headScores_ok, ne_eq, and_iff_right hmul]
    simp only [touch_ok, and_self]

/-! ### Linears -/

/-- The width of a matrix does not exceed the storage of its kernel, if it has rows. -/
def Matrix.Fits (w : Matrix) (regime m k : Int) : Prop :=
  0 < rows m →
    if w.kind = 2 ∨ w.kind = 3 then (unsigned k).toNat ≤ 524288
    else if regime = 3 ∧ (w.kind = 0 ∨ w.kind = 1) then True
    else (unsigned (k.tdiv 256)).toNat ≤ 256

section Linear

variable {kvCells : Nat} {input out : Ptr} {w : List UInt8} {m k : Int} {acc : Bool}

/-- Threads that each take a row: what they do before they write it, and the row. -/
private theorem rows_ok {per : Int} {block : Nat} {kernel : Kernel F} {x : Res Unit} (hper : 0 < per)
    (hblock : block = per.toNat) :
    threads (⟨gridFor m per, block, kernel⟩ : Launch F) (unsigned m) (fun gid => do
      x
      cell kvCells out gid) = .ok () ↔ (0 < rows m → x = .ok ()) ∧ Within kvCells out (rows m) := by
  rw [threads_ok hper hblock]
  simp only [then_ok]
  constructor
  · intro h
    exact ⟨fun hsome => (h 0 hsome).1, fun row hrow => (h row hrow).2⟩
  · rintro ⟨hx, hout⟩ row hrow
    exact ⟨hx (Nat.zero_lt_of_lt hrow), hout row hrow⟩

theorem q80_inside :
    (⟨gridFor m 64, 64, .q80 acc input w out (unsigned k) (unsigned m)⟩ : Launch F).subscripts kvCells = .ok () ↔
      (0 < rows m → (unsigned k).toNat ≤ 524288) ∧ Within kvCells out (rows m) :=
  (rows_ok (by decide) rfl).trans (and_congr_left' (imp_congr_right fun _ => chunkSums_ok (by decide)))

theorem q50_inside :
    (⟨gridFor m 64, 64, .q50 acc input w out (unsigned k) (unsigned m)⟩ : Launch F).subscripts kvCells = .ok () ↔
      (0 < rows m → (unsigned k).toNat ≤ 524288) ∧ Within kvCells out (rows m) :=
  (rows_ok (by decide) rfl).trans (and_congr_left' (imp_congr_right fun _ => chunkSums_ok (by decide)))

theorem q6kDot_inside :
    (⟨gridFor m 64, 64, .q6kDot acc w out (unsigned k) (unsigned m) (unsigned (k.tdiv 256))⟩ :
      Launch F).subscripts kvCells = .ok () ↔
        (0 < rows m → (unsigned (k.tdiv 256)).toNat ≤ 256) ∧ Within kvCells out (rows m) :=
  (rows_ok (by decide) rfl).trans (and_congr_left' (imp_congr_right fun _ => superBlockParts_ok))

/-- Eight rows to a block of 64 threads. -/
theorem q4kCoop_inside :
    (⟨gridFor m 8, 64, .q4kCoop input w out (unsigned k) (unsigned m) (unsigned (k.tdiv 256)) acc⟩ :
      Launch F).subscripts kvCells = .ok () ↔
        (0 < rows m → (unsigned (k.tdiv 256)).toNat ≤ 256) ∧ Within kvCells out (rows m) :=
  (@rows_ok F kvCells out m 8 8 (.q6kQuantize input 0) _ (by decide) rfl).trans
    (and_congr_left' (imp_congr_right fun _ => kQ4kCoop_ok))

theorem rs_inside {nsuper : UInt32} {kernel : Kernel F}
    (hkernel : kernel = .q4kRs w out (unsigned m) nsuper acc ∨ kernel = .q6kRs w out (unsigned m) nsuper acc) :
    (⟨gridFor m 64, 64, kernel⟩ : Launch F).subscripts kvCells = .ok () ↔ Within kvCells out (rows m) := by
  rcases hkernel with rfl | rfl <;> exact threads_ok (by decide) rfl

/-- The kernels that quantize their input have no fixed storage. -/
theorem quantized_inside {grid block : Nat} {nsuper : UInt32} {quantize : Kernel F} {dot : Launch F}
    (hquantize : quantize = .q4kQ8Quantize input nsuper ∨ quantize = .q6kQuantize input nsuper) :
    (∀ l ∈ [⟨grid, block, quantize⟩, dot], l.subscripts kvCells = .ok ()) ↔ dot.subscripts kvCells = .ok () := by
  rw [List.forall_mem_cons, List.forall_mem_singleton]
  apply and_iff_right
  rcases hquantize with rfl | rfl <;> rfl

theorem lin_inside {w : Matrix} {regime : Int} :
    (∀ l ∈ (lin input w out m k acc regime : List (Launch F)), l.subscripts kvCells = .ok ()) ↔
      w.Fits regime m k ∧ Within kvCells out (rows m) := by
  unfold lin Matrix.Fits
  -- The launch `lin` chooses, by regime and kind, in the order of its tests.
  by_cases h0 : regime = 3 ∧ w.kind = 0
  · rw [if_pos h0, quantized_inside (.inl rfl), rs_inside (.inl rfl)]
    simp [h0.1, h0.2]
  rw [if_neg h0]
  by_cases h1 : regime = 3 ∧ w.kind = 1
  · rw [if_pos h1, quantized_inside (.inr rfl), rs_inside (.inr rfl)]
    simp [h1.1, h1.2]
  have hfloat : ¬(regime = 3 ∧ (w.kind = 0 ∨ w.kind = 1)) := fun h =>
    h.2.elim (fun hk => h0 ⟨h.1, hk⟩) (fun hk => h1 ⟨h.1, hk⟩)
  rw [if_neg h1, if_neg hfloat]
  by_cases hdot : w.kind = 1
  · rw [if_pos hdot, quantized_inside (.inr rfl), q6kDot_inside, if_neg (by omega)]
  rw [if_neg hdot]
  by_cases h2 : w.kind = 2
  · rw [if_pos h2, List.forall_mem_singleton, q80_inside, if_pos (.inl h2)]
  rw [if_neg h2]
  by_cases h3 : w.kind = 3
  · rw [if_pos h3, List.forall_mem_singleton, q50_inside, if_pos (.inr h3)]
  · rw [if_neg h3, List.forall_mem_singleton, q4kCoop_inside, if_neg (not_or.mpr ⟨h2, h3⟩)]

end Linear

/-! ### Rows of the cache -/

section Row

variable {kvCells : Nat} {x : Ptr}

theorem addBias_inside {b : Option (List F)} {n : Int} (hx : Within kvCells x (rows n)) :
    ∀ l ∈ VtCuda.addBias x b n, l.subscripts kvCells = .ok () := by
  unfold VtCuda.addBias
  cases b with
  | none => exact fun l hl => nomatch hl
  | some b =>
    rw [List.forall_mem_singleton]
    exact (threads_ok (by decide) rfl).mpr fun gid hgid => hx gid hgid

private theorem interleaved {n : Nat} {p : Nat → Prop} :
    (∀ i < n, p (2 * i) ∧ p (2 * i + 1)) ↔ ∀ j < 2 * n, p j := by
  constructor
  · intro h j hj
    obtain ⟨heven, hodd⟩ := h (j / 2) (by omega)
    rcases Nat.mod_two_eq_zero_or_one j with hmod | hmod
    · rwa [show 2 * (j / 2) = j by omega] at heven
    · rwa [show 2 * (j / 2) + 1 = j by omega] at hodd
  · exact fun h i hi => ⟨h _ (by omega), h _ (by omega)⟩

private theorem halves {n : Nat} {p : Nat → Prop} : (∀ i < n, p i ∧ p (i + n)) ↔ ∀ j < 2 * n, p j := by
  constructor
  · intro h j hj
    rcases Nat.lt_or_ge j n with hlow | hhigh
    · exact (h j hlow).1
    · have hpair := (h (j - n) (by omega)).2
      rwa [Nat.sub_add_cancel hhigh] at hpair
  · exact fun h i hi => ⟨h _ (by omega), h _ (by omega)⟩

/-- In either layout, the pairs of a head cover it up to an odd last cell. -/
theorem kRope_ok {neox : Bool} {headDim : UInt32} {gid : Nat} (hx : x.Cached) :
    kRope kvCells neox x headDim gid = .ok () ↔
      SpanFits kvCells x.off (gid * headDim.toNat) (2 * (headDim.toNat / 2)) := by
  have htwo : (2 : UInt32).toNat = 2 := rfl
  have hone : (1 : UInt32).toNat = 1 := rfl
  have hhalf : (headDim / 2).toNat = headDim.toNat / 2 := by rw [UInt32.toNat_div, htwo]
  unfold kRope
  rw [sweep_ok, hhalf, ← spanFits_iff]
  -- The two layouts touch the same cells of the head, in another order.
  cases neox with
  | true =>
    rw [← @halves _ fun j => x.off + (gid * headDim.toNat + j) % 2 ^ 32 < kvCells]
    refine forall_congr' fun i => imp_congr_right fun hi => ?_
    rw [if_pos rfl, then_ok, cell_cached hx, cell_cached hx]
    simp only [UInt32.toNat_add, UInt32.toNat_mul, UInt32.toNat_ofNat', hhalf, ← Nat.add_assoc, Nat.mod_mul_mod,
      Nat.mod_add_mod, Nat.add_mod_mod]
  | false =>
    rw [← @interleaved _ fun j => x.off + (gid * headDim.toNat + j) % 2 ^ 32 < kvCells]
    refine forall_congr' fun i => imp_congr_right fun hi => ?_
    rw [if_neg (by decide), then_ok, cell_cached hx, cell_cached hx]
    simp only [UInt32.toNat_add, UInt32.toNat_mul, UInt32.toNat_ofNat', htwo, hone, ← Nat.add_assoc, Nat.mod_mul_mod,
      Nat.mul_mod_mod, Nat.mod_add_mod, Nat.add_mod_mod]

theorem rope_threads {neox : Bool} {nHeads : Int} {headDim : UInt32} :
    (⟨gridFor nHeads 64, 64, .rope neox x 1 (unsigned nHeads) headDim⟩ : Launch F).subscripts kvCells = .ok () ↔
      ∀ gid < rows nHeads, kRope kvCells neox x headDim gid = .ok () := by
  have hseq : 1 * unsigned nHeads = unsigned nHeads := UInt32.one_mul _
  change threads _ (1 * unsigned nHeads) _ = _ ↔ _
  rw [hseq]
  exact threads_ok (by decide) rfl

/-- Heads of a row of the cache. -/
theorem rope_cached {neox : Bool} {nHeads : Int} {headDim : UInt32} (hx : x.Cached) :
    (⟨gridFor nHeads 64, 64, .rope neox x 1 (unsigned nHeads) headDim⟩ : Launch F).subscripts kvCells = .ok () ↔
      ∀ gid < rows nHeads, SpanFits kvCells x.off (gid * headDim.toNat) (2 * (headDim.toNat / 2)) :=
  rope_threads.trans (forall_congr' fun _ => imp_congr_right fun _ => kRope_ok hx)

/-- Rotation in scratch. -/
theorem rope_scratch {neox : Bool} {nHeads : Int} {headDim : UInt32} (hx : ¬x.Cached) :
    (⟨gridFor nHeads 64, 64, .rope neox x 1 (unsigned nHeads) headDim⟩ : Launch F).subscripts kvCells = .ok () := by
  refine rope_threads.mpr fun gid _ => ?_
  unfold kRope
  rw [sweep_ok]
  intro i _
  split <;> exact then_ok.mpr ⟨cell_scratch hx, cell_scratch hx⟩

end Row

/-- What the heads read of the rows of a cache, and their scores. -/
theorem attention_inside {kvCells : Nat} {q kc vc out : Ptr} {nHeads : Int} {headSize kvDim kvMul pos : UInt32} :
    (⟨gridFor nHeads 64, 64, .attention q kc vc out (unsigned nHeads) headSize kvDim kvMul pos⟩ :
      Launch F).subscripts kvCells = .ok () ↔
      (0 < rows nHeads → kvMul ≠ 0 ∧ (pos + 1).toNat ≤ 4096 ∧ ∀ t < (pos + 1).toNat, ∀ g < rows nHeads,
        SpanFits kvCells 0 (t * kvDim.toNat + g / kvMul.toNat * headSize.toNat) headSize.toNat) := by
  -- The subscript the kernel computes in 32 bits.
  have hcell : ∀ g < rows nHeads, ∀ t dd,
      (UInt32.ofNat t * kvDim + UInt32.ofNat g / kvMul * headSize + UInt32.ofNat dd).toNat =
        0 + (t * kvDim.toNat + g / kvMul.toNat * headSize.toNat + dd) % 2 ^ 32 := by
    intro g hg t dd
    have hhead : (UInt32.ofNat g).toNat = g := UInt32.toNat_ofNat_of_lt' (Nat.lt_trans hg (rows_lt nHeads))
    rw [UInt32.toNat_add, UInt32.toNat_add, UInt32.toNat_mul, UInt32.toNat_mul, UInt32.toNat_div, hhead,
      UInt32.toNat_ofNat', UInt32.toNat_ofNat', Nat.zero_add]
    simp only [Nat.mod_mul_mod, Nat.mod_add_mod, Nat.add_mod_mod]
  refine (threads_ok (by decide) rfl).trans ?_
  simp only [kAttention_ok, ← spanFits_iff]
  constructor
  -- The bounds are the same for every head, so the first one gives them.
  · intro h hsome
    obtain ⟨hmul, hshort, -⟩ := h 0 hsome
    refine ⟨hmul, hshort, fun t ht g hg dd hdd => ?_⟩
    rw [← hcell g hg t dd]
    exact (h g hg).2.2 t ht dd hdd
  · intro h g hg
    obtain ⟨hmul, hshort, hreads⟩ := h (Nat.zero_lt_of_lt hg)
    refine ⟨hmul, hshort, fun t ht dd hdd => ?_⟩
    rw [hcell g hg t dd]
    exact hreads t ht g hg dd hdd

end Cuda

end VitniTensor
