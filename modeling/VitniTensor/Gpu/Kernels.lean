import VitniTensor.Lib.Subscript
import VitniTensor.Error

/-!
# Fixed storage of the kernels

The arrays of a compile-time size that the kernels of both backends keep: the scores of an attention
head, the parts of a Q6_K row, and the chunk sums of the canonical dot product. Each definition runs
the loops of its kernel for the subscripts of these arrays, which depend on the widths and on the
position only.
-/

namespace VitniTensor

open Outcome Subscript

namespace Gpu

/-- `fixed_tree(part, len)`, of an array of `size` cells. -/
def fixedTree (size len : Nat) : Res Unit :=
  if len = 0 then .ok ()
  else if len = 1 then touch size 0
  else do
    let hl := (len + 1) / 2
    sweep hl fun t => do
      let u := 2 * t
      touch size u
      (if u + 1 < len then touch size (u + 1) else .ok ())
      touch size t
    fixedTree size hl
termination_by len

/-- `parts[s]` for every super-block, and the tree over them. -/
def superBlockParts (size : Nat) (nsuper : UInt32) : Res Unit := do
  sweep nsuper.toNat (touch size)
  fixedTree size nsuper.toNat

/-- `while (done < K)`: a chunk of 8192 at a time, one sum for each. -/
def chunkLoop (size : Nat) (k done : UInt32) (nch : Nat) : Res Nat :=
  if done < k then
    if nch < size then chunkLoop size k (min (done + 8192) k) (nch + 1)
    else panic .outOfRange
  else .ok nch
termination_by size - nch

/-- `chunk_sums` of a row dequantized on the fly. -/
def chunkSums (size : Nat) (k : UInt32) : Res Unit := do
  let nch ← chunkLoop size k 0 0
  fixedTree size nch

/-- The last `n` super-blocks, from `b` on: one sum after every 32 of them, and after the last. -/
def superBlockLoop (size : Nat) (k : UInt32) : (n b nch : Nat) → Res Nat
  | 0, _, nch => .ok nch
  | n + 1, b, nch =>
    let base := UInt32.ofNat b * 256
    if base ≥ k then .ok nch
    else
      let avail := min 256 (k - base)
      let isLast := base + avail ≥ k
      if (UInt32.ofNat b + 1) % 32 = 0 ∨ isLast then do
        let nch ← push size nch
        superBlockLoop size k n (b + 1) nch
      else superBlockLoop size k n (b + 1) nch

/-- `chunk_sums` of a row of super-blocks. -/
def superBlockSums (size : Nat) (k nsuper : UInt32) : Res Unit := do
  let nch ← superBlockLoop size k nsuper.toNat 0 0
  fixedTree size nch

/-- `scores` of one head, over its passes. `readKey t dd` and `readValue t dd` are the subscripts of
the cache rows. -/
def headScores (size : Nat) (headSize tlen : UInt32) (readKey readValue : Nat → Nat → Res Unit) :
    Res Unit := do
  sweep tlen.toNat fun t => do
    sweepLanes 8 headSize.toNat (readKey t)
    touch size t
  -- the maximum, the exponentials, their sum and the division by it
  sweep tlen.toNat (touch size)
  sweep tlen.toNat (touch size)
  sweepLanes 8 tlen.toNat (touch size)
  sweep tlen.toNat (touch size)
  sweep headSize.toNat fun dd => sweepLanes 8 tlen.toNat fun t => do
    touch size t
    readValue t dd

/-! ### Bounds -/

theorem toNat_min (a b : UInt32) : (min a b).toNat = min a.toNat b.toNat := by
  have hmin : min a b = if a ≤ b then a else b := rfl
  rw [hmin]
  split
  next hle => rw [Nat.min_eq_left (UInt32.le_iff_toNat_le.mp hle)]
  next hle => rw [Nat.min_eq_right (Nat.le_of_not_le fun h => hle (UInt32.le_iff_toNat_le.mpr h))]

theorem fixedTree_ok {size len : Nat} (h : len ≤ size) : fixedTree size len = .ok () := by
  induction len using Nat.strongRecOn with
  | ind len ih =>
    unfold fixedTree
    split
    next => rfl
    next hzero =>
      split
      next hone => exact touch_ok.mpr (by omega)
      next hone =>
        simp only [then_ok, sweep_ok, touch_ok]
        refine ⟨fun t ht => ⟨by omega, ?_, by omega⟩, ih _ (by omega) (by omega)⟩
        split
        next => exact touch_ok.mpr (by omega)
        next => rfl

theorem superBlockParts_ok {size : Nat} {nsuper : UInt32} :
    superBlockParts size nsuper = .ok () ↔ nsuper.toNat ≤ size := by
  unfold superBlockParts
  simp only [then_ok, sweep_ok, touch_ok]
  constructor
  · rintro ⟨hparts, -⟩
    by_contra hlong
    exact absurd (hparts size (by omega)) (Nat.lt_irrefl size)
  · intro h
    exact ⟨fun s hs => Nat.lt_of_lt_of_le hs h, fixedTree_ok h⟩

/-- The chunks that are left. -/
theorem chunkLoop_ok {size : Nat} {k done : UInt32} {nch m : Nat} (hsize : size < 2 ^ 16)
    (hdone : done.toNat = min (8192 * nch) k.toNat) (hnch : nch ≤ size) :
    chunkLoop size k done nch = .ok m ↔ m = max nch ((k.toNat + 8191) / 8192) ∧ m ≤ size := by
  fun_induction chunkLoop size k done nch with
  | case1 done nch hmore hroom ih =>
    rw [UInt32.lt_iff_toNat_lt] at hmore
    have hnext : (done + 8192).toNat = 8192 * (nch + 1) := by
      have hchunk : (8192 : UInt32).toNat = 8192 := rfl
      rw [UInt32.toNat_add, hchunk]
      omega
    rw [ih _ hroom]
    · omega
    · rw [toNat_min, hnext]
  | case2 done nch hmore hfull =>
    rw [UInt32.lt_iff_toNat_lt] at hmore
    simp only [reduceCtorEq, false_iff]
    omega
  | case3 done nch hend =>
    rw [UInt32.lt_iff_toNat_lt] at hend
    simp only [Except.ok.injEq]
    omega

theorem chunkSums_ok {size : Nat} {k : UInt32} (hsize : size < 2 ^ 16) :
    chunkSums size k = .ok () ↔ k.toNat ≤ 8192 * size := by
  unfold chunkSums
  rw [bind_eq_ok]
  constructor
  · rintro ⟨nch, hloop, -⟩
    rw [chunkLoop_ok hsize (by simp) (Nat.zero_le _)] at hloop
    omega
  · intro h
    refine ⟨_, (chunkLoop_ok hsize (by simp) (Nat.zero_le _)).mpr ⟨rfl, ?_⟩, fixedTree_ok ?_⟩ <;> omega

/-- The sums there are after `m` of `c` super-blocks. -/
def sumsAfter (c m : Nat) : Nat :=
  m / 32 + if m = c ∧ m % 32 ≠ 0 then 1 else 0

/-- The chunk sums of a row: the loop ends with the row's blocks or with its width. -/
def superBlockCount (k nsuper : Nat) : Nat :=
  sumsAfter ((k + 255) / 256) (min nsuper ((k + 255) / 256))

theorem sumsAfter_mono {c m n : Nat} (hle : m ≤ n) (hn : n ≤ c) : sumsAfter c m ≤ sumsAfter c n := by
  unfold sumsAfter
  split <;> split <;> omega

theorem sumsAfter_succ {c b : Nat} (hb : b < c) :
    sumsAfter c (b + 1) = sumsAfter c b + if (b + 1) % 32 = 0 ∨ b + 1 = c then 1 else 0 := by
  unfold sumsAfter
  split <;> split <;> split <;> omega

theorem superBlockLoop_ok {size : Nat} {k : UInt32} {n b nch m : Nat} (hsize : size < 2 ^ 16)
    (hb : b ≤ (k.toNat + 255) / 256) (hnch : nch = sumsAfter ((k.toNat + 255) / 256) b) (hle : nch ≤ size) :
    superBlockLoop size k n b nch = .ok m ↔
      m = sumsAfter ((k.toNat + 255) / 256) (min (b + n) ((k.toNat + 255) / 256)) ∧ m ≤ size := by
  induction n generalizing b nch with
  | zero =>
    have hall : min (b + 0) ((k.toNat + 255) / 256) = b := Nat.min_eq_left hb
    rw [hall, ← hnch, superBlockLoop, Except.ok.injEq]
    omega
  | succ n ih =>
    have hk := k.toNat_lt
    have hlow : b / 32 ≤ nch := by
      rw [hnch]
      exact Nat.le_add_right _ _
    have hblock : (UInt32.ofNat b).toNat = b := UInt32.toNat_ofNat_of_lt' (by unfold UInt32.size; omega)
    have hbase : (UInt32.ofNat b * 256).toNat = b * 256 := by
      have hwidth : (256 : UInt32).toNat = 256 := rfl
      rw [UInt32.toNat_mul, hblock, hwidth]
      omega
    unfold superBlockLoop
    by_cases hend : UInt32.ofNat b * 256 ≥ k
    · rw [if_pos hend]
      rw [ge_iff_le, UInt32.le_iff_toNat_le, hbase] at hend
      have hall : min (b + (n + 1)) ((k.toNat + 255) / 256) = b := by omega
      rw [hall, ← hnch, Except.ok.injEq]
      omega
    · rw [if_neg hend]
      rw [ge_iff_le, UInt32.le_iff_toNat_le, hbase] at hend
      have hin : b < (k.toNat + 255) / 256 := by omega
      have hrest : (k - UInt32.ofNat b * 256).toNat = k.toNat - b * 256 := by
        rw [UInt32.toNat_sub_of_le _ _ (UInt32.le_iff_toNat_le.mpr (by omega)), hbase]
      have havail : (min 256 (k - UInt32.ofNat b * 256)).toNat = min 256 (k.toNat - b * 256) := by
        rw [toNat_min, hrest]
        rfl
      have hlast : UInt32.ofNat b * 256 + min 256 (k - UInt32.ofNat b * 256) ≥ k ↔
          b + 1 = (k.toNat + 255) / 256 := by
        rw [ge_iff_le, UInt32.le_iff_toNat_le, UInt32.toNat_add, hbase, havail]
        omega
      have hchunk : (UInt32.ofNat b + 1) % 32 = 0 ↔ (b + 1) % 32 = 0 := by
        have hone : (1 : UInt32).toNat = 1 := rfl
        have hspc : (32 : UInt32).toNat = 32 := rfl
        have hzero : (0 : UInt32).toNat = 0 := rfl
        rw [← UInt32.toNat_inj, UInt32.toNat_mod, UInt32.toNat_add, hblock, hone, hspc, hzero]
        omega
      have hcount := sumsAfter_succ hin
      have hmono := sumsAfter_mono (Nat.le_min.mpr ⟨Nat.le_add_right (b + 1) n, hin⟩) (Nat.min_le_right _ _)
      have hreorder : b + (n + 1) = b + 1 + n := by omega
      simp only [hlast, hchunk]
      rw [hreorder]
      by_cases hsum : (b + 1) % 32 = 0 ∨ b + 1 = (k.toNat + 255) / 256
      · rw [if_pos hsum] at hcount
        rw [if_pos hsum]
        by_cases hroom : nch < size
        · rw [push_of_lt hroom, ok_bind, ih (by omega) (by omega) (by omega)]
        · have hfull : (push size nch : Res Nat) = panic .outOfRange := if_neg hroom
          rw [hfull, error_bind]
          simp only [reduceCtorEq, false_iff]
          omega
      · rw [if_neg hsum] at hcount
        rw [if_neg hsum, ih (by omega) (by omega) hle]

theorem superBlockSums_ok {size : Nat} {k nsuper : UInt32} (hsize : size < 2 ^ 16) :
    superBlockSums size k nsuper = .ok () ↔ superBlockCount k.toNat nsuper.toNat ≤ size := by
  have hstart : 0 = sumsAfter ((k.toNat + 255) / 256) 0 := by
    unfold sumsAfter
    split <;> omega
  unfold superBlockSums superBlockCount
  rw [bind_eq_ok]
  constructor
  · rintro ⟨nch, hloop, -⟩
    rw [superBlockLoop_ok hsize (Nat.zero_le _) hstart (Nat.zero_le _), Nat.zero_add] at hloop
    omega
  · intro h
    refine ⟨_, (superBlockLoop_ok hsize (Nat.zero_le _) hstart (Nat.zero_le _)).mpr ⟨rfl, ?_⟩, ?_⟩
    · rw [Nat.zero_add]
      exact h
    · rw [Nat.zero_add]
      exact fixedTree_ok h

theorem headScores_ok {size : Nat} {headSize tlen : UInt32} {readKey readValue : Nat → Nat → Res Unit} :
    headScores size headSize tlen readKey readValue = .ok () ↔ tlen.toNat ≤ size ∧
      ∀ t < tlen.toNat, ∀ dd < headSize.toNat, readKey t dd = .ok () ∧ readValue t dd = .ok () := by
  unfold headScores
  simp only [then_ok, sweep_ok, sweepLanes_ok (Nat.zero_lt_succ 7), touch_ok]
  constructor
  · rintro ⟨hkeys, hscores, -, -, -, hvalues⟩
    refine ⟨?_, fun t ht dd hdd => ⟨(hkeys t ht).1 dd hdd, (hvalues dd hdd t ht).2⟩⟩
    by_contra hlong
    exact absurd (hscores size (by omega)) (Nat.lt_irrefl size)
  · rintro ⟨hlen, hrows⟩
    have hscores : ∀ t < tlen.toNat, t < size := fun t ht => Nat.lt_of_lt_of_le ht hlen
    exact ⟨fun t ht => ⟨fun dd hdd => (hrows t ht dd hdd).1, hscores t ht⟩, hscores, hscores, hscores, hscores,
      fun dd hdd t ht => ⟨hscores t ht, (hrows t ht dd hdd).2⟩⟩

end Gpu

end VitniTensor
