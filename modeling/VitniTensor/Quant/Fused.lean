import VitniTensor.Quant.Blocks
import VitniTensor.Quant.Reduce

/-!
# Fused row kernels

A row of super-blocks against a row of activations, one super-block decoded at a time. The
lanes run on across super-blocks and are folded where a chunk of the canonical reduction
ends.
-/

namespace VitniTensor

open Outcome

variable {F : Type} [F32 F]

/-- `CANON_CHUNK / 256`. -/
abbrev supersPerChunk : Nat := 32

/-- One super-block of decoded weights `buf` into the lanes, and the chunk closed on its
boundary or at the end of the row. -/
def fusedStep (x buf : List F) (n b : Nat) (s : List F × List F) : Res (List F × List F) := do
  let base := b * 256
  let avail := min 256 (n - base)
  let xs ← slice x base (base + avail)
  let lanes ← addLanes avail (productAt xs buf) s.1
  if (b + 1) % supersPerChunk = 0 ∨ base + avail ≥ n then do
    let sum ← fixedTree lanes
    pure (zeroLanes, s.2 ++ [sum])
  else pure (lanes, s.2)

/-- The loop over the super-blocks from index `b` on, with its `break`. -/
def fusedLoop {size : Nat} (decode : Vector UInt8 size → List F) (x : List F) (n : Nat) :
    (b : Nat) → List (Vector UInt8 size) → List F × List F → Res (List F × List F)
  | _, [], s => .ok s
  | b, block :: blocks, s =>
    if b * 256 ≥ n then .ok s
    else do
      let s ← fusedStep x (decode block) n b s
      fusedLoop decode x n (b + 1) blocks s

/-- The chunk sums of a row and their tree. -/
def fusedRow {size : Nat} (decode : Vector UInt8 size → List F) (x : List F) (w : List UInt8)
    (n : Nat) : Res F := do
  let s ← fusedLoop decode x n 0 (blocksOf size w) (zeroLanes, [])
  fixedTree s.2

def canonicalDotQ4kFused (x : List F) (w : List UInt8) (n : Nat) : Res F :=
  if w.length % 144 ≠ 0 then .error (.err (.internal "Q4_K byte length not a multiple of 144"))
  else if n = 0 then .ok F32.zero
  else fusedRow q4kWeights x w n

/-- Unlike the Q4_K kernel, this one refuses a row that decodes to fewer than `n` weights. -/
def q6kFusedF32Dot (x : List F) (w : List UInt8) (n : Nat) : Res F :=
  if w.length % 210 ≠ 0 then .error (.err (.internal "Q6_K byte length not a multiple of 210"))
  else if n = 0 then .ok F32.zero
  else if w.length / 210 * 256 < n then .error (.err (.internal "Q6_K row shorter than n"))
  else fusedRow q6kWeights x w n

/-! ### The kernels never stop on whole rows -/

private theorem fusedStep_ok {x buf : List F} {n b : Nat} {s : List F × List F}
    (hx : n ≤ x.length) (hb : b * 256 < n) (hbuf : buf.length = 256) (hs : s.1.length = canonLanes) :
    ∃ s', fusedStep x buf n b s = .ok s' ∧ s'.1.length = canonLanes := by
  have hinside : b * 256 + min 256 (n - b * 256) ≤ x.length := by omega
  unfold fusedStep
  simp only [slice_of_le (Nat.le_add_right _ _) hinside, ok_bind, Nat.add_sub_cancel_left]
  have hterm : ∀ i < min 256 (n - b * 256), ∃ p,
      productAt ((x.drop (b * 256)).take (min 256 (n - b * 256))) buf i = .ok p := by
    intro i hi
    refine productAt_ok ?_ (by omega)
    rw [List.length_take, List.length_drop]
    omega
  obtain ⟨lanes, hlanes, hlength⟩ := addLanes_ok hs hterm
  rw [hlanes, ok_bind]
  split
  next hclose =>
    obtain ⟨sum, hsum⟩ := fixedTree_ok lanes
    rw [hsum, ok_bind]
    exact ⟨_, rfl, length_zeroLanes⟩
  next hopen => exact ⟨_, rfl, hlength⟩

private theorem fusedLoop_ok {size : Nat} {decode : Vector UInt8 size → List F}
    (hdecode : ∀ block, (decode block).length = 256) {x : List F} {n : Nat} (hx : n ≤ x.length)
    (b : Nat) (blocks : List (Vector UInt8 size)) {s : List F × List F}
    (hs : s.1.length = canonLanes) : ∃ s', fusedLoop decode x n b blocks s = .ok s' := by
  induction blocks generalizing b s with
  | nil => exact ⟨s, rfl⟩
  | cons block blocks ih =>
    unfold fusedLoop
    split
    next hdone => exact ⟨s, rfl⟩
    next hmore =>
      obtain ⟨s', hstep, hs'⟩ := fusedStep_ok hx (Nat.lt_of_not_le hmore) (hdecode block) hs
      rw [hstep, ok_bind]
      exact ih (b + 1) hs'

private theorem fusedRow_ok {size : Nat} {decode : Vector UInt8 size → List F}
    (hdecode : ∀ block, (decode block).length = 256) {x : List F} {n : Nat} (hx : n ≤ x.length)
    (w : List UInt8) : ∃ v, fusedRow decode x w n = .ok v := by
  obtain ⟨s, hrun⟩ := fusedLoop_ok hdecode hx 0 (blocksOf size w) (s := (zeroLanes, []))
    length_zeroLanes
  unfold fusedRow
  rw [hrun, ok_bind]
  exact fixedTree_ok s.2

theorem canonicalDotQ4kFused_ok {x : List F} {w : List UInt8} {n : Nat} (hx : n ≤ x.length)
    (hw : w.length % 144 = 0) : ∃ v, canonicalDotQ4kFused x w n = .ok v := by
  unfold canonicalDotQ4kFused
  rw [if_neg (not_not_intro hw)]
  split
  next => exact ⟨_, rfl⟩
  next => exact fusedRow_ok length_q4kWeights hx w

theorem q6kFusedF32Dot_ok {x : List F} {w : List UInt8} {n : Nat} (hx : n ≤ x.length)
    (hw : w.length % 210 = 0) (hn : n ≤ w.length / 210 * 256) :
    ∃ v, q6kFusedF32Dot x w n = .ok v := by
  unfold q6kFusedF32Dot
  rw [if_neg (not_not_intro hw), if_neg (Nat.not_lt.mpr hn)]
  split
  next => exact ⟨_, rfl⟩
  next => exact fusedRow_ok length_q6kWeights hx w

end VitniTensor
