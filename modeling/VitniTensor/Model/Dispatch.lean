import VitniTensor.Model.QuantWeights
import VitniTensor.Quant.Linear

/-!
# Linear dispatch and embedding lookup

The two functions of the quantized forward pass that branch on a weight's dtype.
-/

namespace VitniTensor

open Outcome

variable {F : Type} [F32 F]

/-- How the crate was built: without `std-parallel`, or with it, on a machine of so many
threads (no machine has `2 ^ 62`, where `4 * threads` would overflow) and with so scheduled
tasks. -/
inductive Build where
  | serial
  | stdParallel (threads : Nat) (sched : Schedule) (few : threads ≤ 2 ^ 32)

/-- `PAR_MIN_ROWS`. -/
abbrev parMinRows : Nat := 512

/-- Bytes of a row of 32-element blocks. -/
def blockRowBytes (ragged : String) (size inFeat : Nat) : Res Nat :=
  if inFeat % 32 ≠ 0 then .error (.err (.internal ragged)) else .ok (inFeat / 32 * size)

def q8_0RowBytes : Nat → Res Nat :=
  blockRowBytes "Q8_0: in_feat must be a multiple of 32" 34

def q5_0RowBytes : Nat → Res Nat :=
  blockRowBytes "Q5_0: in_feat must be a multiple of 32" 22

/-- The Q8_0 and Q5_0 arms: every row decoded on its own, then reduced. -/
def linearByRow (rowBytes : Nat → Res Nat) (small : String) (dequant : List UInt8 → Res (List F))
    (x : List F) (w : List UInt8) (inFeat outFeat : Nat) (y : List F) : Res (List F) := do
  let rowBytes ← rowBytes inFeat
  let need ← word (outFeat * rowBytes)
  if w.length < need then .error (.err (.internal small))
  else
    rowLoop rowBytes (fun bytes => do
      let row ← dequant bytes
      canonicalDot x row inFeat) w 0 outFeat y

/-- The F32 arm. -/
def linearF32 (x : List F) (w : QuantTensor) (inFeat outFeat : Nat) (y : List F) : Res (List F) := do
  let numel ← word (outFeat * inFeat)
  let need ← word (numel * 4)
  if w.bytes.length ≠ need then
    .error (.err (.internal "linear_dispatch F32: weight size mismatch"))
  else do
    let wF32 ← f32View w.bytes w.aligned
    rowLoop inFeat (fun row => canonicalDot x row inFeat) wF32 0 outFeat y

/-- The Q4_K arm: parallel from 512 rows on, when built so. -/
def dispatchQ4K (build : Build) (x : List F) (w : List UInt8) (inFeat outFeat : Nat) (y : List F) :
    Res (List F) :=
  match build with
  | .serial => linearQ4KFused x w y 1 inFeat outFeat
  | .stdParallel threads sched _ =>
    if outFeat ≥ parMinRows then linearQ4KFusedParallel sched x w y 1 inFeat outFeat threads
    else linearQ4KFused x w y 1 inFeat outFeat

def dispatchQ6K (build : Build) (x : List F) (w : List UInt8) (inFeat outFeat : Nat) (y : List F) :
    Res (List F) :=
  match build with
  | .serial => linearQ6KInteger x w y 1 inFeat outFeat
  | .stdParallel threads sched _ =>
    if outFeat ≥ parMinRows then linearQ6KIntegerParallel sched x w y 1 inFeat outFeat threads
    else linearQ6KInteger x w y 1 inFeat outFeat

/-- The arms of `linear_dispatch` by dtype, on its output vector. -/
def linearArms (build : Build) (x : List F) (w : QuantTensor) (inFeat outFeat : Nat) (regime : UInt8)
    (y : List F) : Res (List F) :=
  match w.dtype with
  | .q4_0 => linearQ4_0Cpu x w.bytes y 1 inFeat outFeat
  | .f32 => linearF32 x w inFeat outFeat y
  | .q4_k =>
    -- regime 3 overrides the k-quants only
    if regime = 3 then linearQ4KIntegerRs x w.bytes y 1 inFeat outFeat
    else dispatchQ4K build x w.bytes inFeat outFeat y
  | .q6_k =>
    if regime = 3 then linearQ6KIntegerRs x w.bytes y 1 inFeat outFeat
    else dispatchQ6K build x w.bytes inFeat outFeat y
  | .q8_0 => linearByRow q8_0RowBytes "linear_dispatch Q8_0: weight blob too small" dequantizeQ8_0
      x w.bytes inFeat outFeat y
  | .q5_0 => linearByRow q5_0RowBytes "linear_dispatch Q5_0: weight blob too small" dequantizeQ5_0
      x w.bytes inFeat outFeat y
  | .f16 | .other _ => .error (.err (.notImplemented "forward_quantized::linear_dispatch"
      "weight dtype not Q4_0 / Q4_K / Q5_0 / Q6_K / Q8_0 / F32"))

def linearDispatch (build : Build) (x : List F) (w : QuantTensor) (inFeat outFeat : Nat)
    (regime : UInt8) : Res (List F) := do
  let y ← zeroVec outFeat
  linearArms build x w inFeat outFeat regime y

theorem linearDispatch_eq {build : Build} {x : List F} {w : QuantTensor} {inFeat outFeat : Nat} {regime : UInt8}
    (hout : outFeat * 4 < 2 ^ 63) :
    linearDispatch build x w inFeat outFeat regime =
      linearArms build x w inFeat outFeat regime (List.replicate outFeat F32.zero) := by
  unfold linearDispatch
  rw [zeroVec_of_lt hout, ok_bind]

theorem linearDispatch_fits {build : Build} {x y : List F} {w : QuantTensor} {inFeat outFeat : Nat}
    {regime : UInt8} (h : linearDispatch build x w inFeat outFeat regime = .ok y) : outFeat * 4 < 2 ^ 63 := by
  obtain ⟨zeros, hzeros, -⟩ := bind_eq_ok.mp h
  exact zeroVec_eq_ok hzeros

/-! ### A linear returns `out_feat` numbers -/

private theorem length_dispatchQ4K {build : Build} {x y y' : List F} {w : List UInt8}
    {inFeat outFeat : Nat} (h : dispatchQ4K build x w inFeat outFeat y = .ok y') :
    y'.length = y.length := by
  unfold dispatchQ4K at h
  cases build with
  | serial => exact length_linearQ4KFused h
  | stdParallel threads sched few =>
    dsimp only at h
    split at h
    next => exact length_linearQ4KFusedParallel h
    next => exact length_linearQ4KFused h

private theorem length_dispatchQ6K {build : Build} {x y y' : List F} {w : List UInt8}
    {inFeat outFeat : Nat} (h : dispatchQ6K build x w inFeat outFeat y = .ok y') :
    y'.length = y.length := by
  unfold dispatchQ6K at h
  cases build with
  | serial => exact length_linearQ6KInteger h
  | stdParallel threads sched few =>
    dsimp only at h
    split at h
    next => exact length_linearQ6KIntegerParallel h
    next => exact length_linearQ6KInteger h

private theorem length_linearByRow {rowBytes : Nat → Res Nat} {small : String}
    {dequant : List UInt8 → Res (List F)} {x y y' : List F} {w : List UInt8} {inFeat outFeat : Nat}
    (h : linearByRow rowBytes small dequant x w inFeat outFeat y = .ok y') : y'.length = y.length := by
  obtain ⟨bytes, -, h⟩ := bind_eq_ok.mp h
  obtain ⟨need, -, h⟩ := bind_eq_ok.mp h
  split at h
  next => cases h
  next => exact Fill.length_forFrom_storeAt h

private theorem length_linearF32 {x y y' : List F} {w : QuantTensor} {inFeat outFeat : Nat}
    (h : linearF32 x w inFeat outFeat y = .ok y') : y'.length = y.length := by
  obtain ⟨numel, -, h⟩ := bind_eq_ok.mp h
  obtain ⟨need, -, h⟩ := bind_eq_ok.mp h
  split at h
  next => cases h
  next =>
    obtain ⟨wF32, -, h⟩ := bind_eq_ok.mp h
    exact Fill.length_forFrom_storeAt h

theorem length_linearDispatch {build : Build} {x y : List F} {w : QuantTensor} {inFeat outFeat : Nat}
    {regime : UInt8} (h : linearDispatch build x w inFeat outFeat regime = .ok y) :
    y.length = outFeat := by
  obtain ⟨zeros, hzeros, h⟩ := bind_eq_ok.mp h
  refine Eq.trans ?_ (length_zeroVec hzeros)
  unfold linearArms at h
  cases hdtype : w.dtype with
  | q4_0 => rw [hdtype] at h; exact length_linearQ4_0Cpu h
  | f32 => rw [hdtype] at h; exact length_linearF32 h
  | q4_k =>
    simp only [hdtype] at h
    split at h
    next => exact length_linearQ4KIntegerRs h
    next => exact length_dispatchQ4K h
  | q6_k =>
    simp only [hdtype] at h
    split at h
    next => exact length_linearQ6KIntegerRs h
    next => exact length_dispatchQ6K h
  | q8_0 => rw [hdtype] at h; exact length_linearByRow h
  | q5_0 => rw [hdtype] at h; exact length_linearByRow h
  | f16 => rw [hdtype] at h; cases h
  | other => rw [hdtype] at h; cases h

/-- The block arms of `embedding_row`: the blocks of one row of the table. -/
def embeddingBlocks (per size : Nat) (ragged past : String) (dequant : List UInt8 → Res (List F))
    (table : List UInt8) (row dim : Nat) : Res (List F) :=
  if dim % per ≠ 0 then .error (.err (.internal ragged))
  else do
    let blocksPerRow := dim / per
    let start ← word (row * blocksPerRow)
    let rowStart ← word (start * size)
    let width ← word (blocksPerRow * size)
    let rowEnd ← word (rowStart + width)
    if rowEnd > table.length then .error (.err (.internal past))
    else do
      let bytes ← slice table rowStart rowEnd
      dequant bytes

def embeddingRow (table : QuantTensor) (row dim : Nat) : Res (List F) :=
  match table.dtype with
  | .f32 => do
    let numel ← word ((row + 1) * dim)
    let need ← word (numel * 4)
    if table.bytes.length < need then
      .error (.err (.internal "embedding_row F32: table too small for token id"))
    else do
      let wF32 ← f32View table.bytes table.aligned
      slice wF32 (row * dim) ((row + 1) * dim)
  | .q4_0 => embeddingBlocks 32 18 "embedding_row Q4_0: dim must be a multiple of 32"
      "embedding_row Q4_0: row past end of table" dequantizeQ4_0 table.bytes row dim
  | .q4_k => embeddingBlocks 256 144 "embedding_row Q4_K: dim must be a multiple of 256"
      "embedding_row Q4_K: row past end of table" dequantizeQ4K table.bytes row dim
  | .q6_k => embeddingBlocks 256 210 "embedding_row Q6_K: dim must be a multiple of 256"
      "embedding_row Q6_K: row past end of table" dequantizeQ6K table.bytes row dim
  | .q5_0 => embeddingBlocks 32 22 "embedding_row Q5_0: dim must be a multiple of 32"
      "embedding_row Q5_0: row past end of table" dequantizeQ5_0 table.bytes row dim
  | .q8_0 => embeddingBlocks 32 34 "embedding_row Q8_0: dim must be a multiple of 32"
      "embedding_row Q8_0: row past end of table" dequantizeQ8_0 table.bytes row dim
  | .f16 | .other _ => .error (.err (.notImplemented "embedding_row"
      "non-Q4_0 / Q4_K / Q6_K / Q8_0 / F32 embedding dtype"))

end VitniTensor
