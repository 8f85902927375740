import VitniTensor.Lib.Fill
import VitniTensor.Quant.Fused
import VitniTensor.Quant.Integer

/-!
# Quantized linears

`y[b, o] = x[b] · W[o]` for the block formats, serial and row-parallel. A parallel linear cuts
the rows of a batch into chunk tasks of one grain, and a schedule runs them in any order.
-/

namespace VitniTensor

open Outcome Fill

variable {F : Type} [F32 F]

/-! ### The loops over batches and rows -/

section Rows

variable {ω α : Type}

/-- The value of output row `o`. -/
def rowAt (width : Nat) (row : List ω → Res F) (w : List ω) (o : Nat) : Res F := do
  let wRow ← slice w (o * width) ((o + 1) * width)
  row wRow

/-- `for o in 0..out_feat { y[base + o] = row(w_row) }`. -/
def rowLoop (width : Nat) (row : List ω → Res F) (w : List ω) (base outFeat : Nat) (y : List F) :
    Res (List F) :=
  forRange outFeat (storeAt (rowAt width row w) base) y

/-- One batch: `prepare` runs once on the activations, `row` once for every weight row. -/
def batchRows (width : Nat) (prepare : List F → Res α) (row : α → List ω → Res F) (x : List F)
    (w : List ω) (inFeat outFeat b : Nat) (y : List F) : Res (List F) := do
  let xRow ← slice x (b * inFeat) ((b + 1) * inFeat)
  let a ← prepare xRow
  rowLoop width (row a) w (b * outFeat) outFeat y

def linearRows (width : Nat) (prepare : List F → Res α) (row : α → List ω → Res F) (x : List F)
    (w : List ω) (y : List F) (batch inFeat outFeat : Nat) : Res (List F) :=
  forRange batch (batchRows width prepare row x w inFeat outFeat) y

/-! ### Chunk tasks -/

/-- An order in which the `n` tasks of batch `b` run. -/
structure Schedule where
  order : (n b : Nat) → List Nat
  perm : ∀ n b, (order n b).Perm (List.range n)

/-- `max(1, out_feat.div_ceil(tasks))`. -/
def grainOf (outFeat tasks : Nat) : Nat :=
  max 1 ((outFeat + tasks - 1) / tasks)

/-- How many chunks `par_chunks_mut(grain)` makes. -/
def chunkCount (outFeat grain : Nat) : Nat :=
  (outFeat + grain - 1) / grain

/-- The rows of task `t`; the last chunk may be ragged. -/
def taskRows (outFeat grain t : Nat) : List Nat :=
  List.range' (t * grain) (min grain (outFeat - t * grain))

/-- Task `t` fills its own slot of `out`. -/
def runTask (f : Nat → Res F) (grain : Nat) (out : List F) (t : Nat) : Res (List F) :=
  forFrom (t * grain) (min grain (out.length - t * grain)) (storeAt f 0) out

/-- One batch, its rows computed by chunk tasks. -/
def batchParallel (width : Nat) (prepare : List F → Res α) (row : α → List ω → Res F)
    (sched : Schedule) (grain : Nat) (x : List F) (w : List ω) (inFeat outFeat b : Nat) (y : List F) :
    Res (List F) := do
  let xRow ← slice x (b * inFeat) ((b + 1) * inFeat)
  let a ← prepare xRow
  let out ← slice y (b * outFeat) ((b + 1) * outFeat)
  let out ← (sched.order (chunkCount outFeat grain) b).foldlM (runTask (rowAt width (row a) w) grain) out
  pure (y.take (b * outFeat) ++ out ++ y.drop ((b + 1) * outFeat))

def linearParallel (width : Nat) (prepare : List F → Res α) (row : α → List ω → Res F)
    (sched : Schedule) (grain : Nat) (x : List F) (w : List ω) (y : List F)
    (batch inFeat outFeat : Nat) : Res (List F) :=
  forRange batch (batchParallel width prepare row sched grain x w inFeat outFeat) y

/-! ### A linear keeps the length of its output -/

omit [F32 F] in
theorem length_linearRows {width : Nat} {prepare : List F → Res α} {row : α → List ω → Res F}
    {x : List F} {w : List ω} {y y' : List F} {batch inFeat outFeat : Nat}
    (h : linearRows width prepare row x w y batch inFeat outFeat = .ok y') : y'.length = y.length := by
  refine forFrom_keeps (fun z => z.length = y.length) (fun b z z' hz hb => ?_) rfl h
  obtain ⟨xRow, -, hb⟩ := bind_eq_ok.mp hb
  obtain ⟨a, -, hb⟩ := bind_eq_ok.mp hb
  exact (length_forFrom_storeAt hb).trans hz

omit [F32 F] in
theorem length_linearParallel {width : Nat} {prepare : List F → Res α} {row : α → List ω → Res F}
    {sched : Schedule} {grain : Nat} {x : List F} {w : List ω} {y y' : List F}
    {batch inFeat outFeat : Nat}
    (h : linearParallel width prepare row sched grain x w y batch inFeat outFeat = .ok y') :
    y'.length = y.length := by
  refine forFrom_keeps (fun z => z.length = y.length) (fun b z z' hz hb => ?_) rfl h
  obtain ⟨xRow, -, hb⟩ := bind_eq_ok.mp hb
  obtain ⟨a, -, hb⟩ := bind_eq_ok.mp hb
  obtain ⟨out, hout, hb⟩ := bind_eq_ok.mp hb
  obtain ⟨out', htasks, hb⟩ := bind_eq_ok.mp hb
  have hsame : out'.length = out.length :=
    foldlM_keeps (fun z => z.length = out.length)
      (fun t u u' hu ht => (length_forFrom_storeAt ht).trans hu) rfl htasks
  have hslice := length_of_slice hout
  obtain ⟨⟨hlo, hhi⟩, -⟩ := slice_eq_ok.mp hout
  cases hb
  rw [List.length_append, List.length_append, List.length_take, List.length_drop]
  omega

end Rows

/-! ### Row kernels on quantized activations -/

/-- `xq`: the activations of a row, quantized once. -/
def quantizeRow (nSuper : Nat) (xRow : List F) : Res (List (Q8Block F)) :=
  collectRange nSuper fun s => do
    let xs ← slice xRow (s * 256) ((s + 1) * 256)
    quantizeBlockQ8 xs

/-- The dot product of super-block `s`. -/
def blockDot {size : Nat} (dot : Vector UInt8 size → Q8Block F → Nat → Res F) (xq : List (Q8Block F))
    (wRow : List UInt8) (s : Nat) : Res F := do
  let block ← index (blocksOf size wRow) s
  let q ← index xq s
  dot block q 256

/-- Regime 2: the partial sums through the fixed tree. -/
def treeRow {size : Nat} (dot : Vector UInt8 size → Q8Block F → Nat → Res F) (nSuper : Nat)
    (xq : List (Q8Block F)) (wRow : List UInt8) : Res F := do
  let parts ← collectRange nSuper (blockDot dot xq wRow)
  fixedTree parts

/-- Regime 3: a running sum in fixed order. -/
def runningRow {size : Nat} (dot : Vector UInt8 size → Q8Block F → Nat → Res F) (nSuper : Nat)
    (xq : List (Q8Block F)) (wRow : List UInt8) : Res F :=
  forRange nSuper (fun s sum => do
    let p ← blockDot dot xq wRow s
    pure (F32.add sum p)) F32.zero

/-! ### Serial linears -/

/-- The shape checks of a k-quant linear. -/
def checkRows (ragged short : String) (rowBytes inFeat outFeat : Nat) (w : List UInt8) : Res Unit :=
  if inFeat % 256 ≠ 0 then .error (.err (.internal ragged))
  else do
    let need ← word (outFeat * rowBytes)
    if w.length < need then .error (.err (.internal short)) else pure ()

def linearQ4KInteger (x : List F) (w : List UInt8) (y : List F) (batch inFeat outFeat : Nat) :
    Res (List F) := do
  let rowBytes := inFeat / 256 * 144
  checkRows "linear_q4_k_integer: in_feat not a multiple of 256"
    "linear_q4_k_integer: weight shape mismatch" rowBytes inFeat outFeat w
  linearRows rowBytes (quantizeRow (inFeat / 256)) (treeRow dotQ4kQ8Block (inFeat / 256))
    x w y batch inFeat outFeat

def linearQ6KInteger (x : List F) (w : List UInt8) (y : List F) (batch inFeat outFeat : Nat) :
    Res (List F) := do
  let rowBytes := inFeat / 256 * 210
  checkRows "linear_q6_k_integer: in_feat not a multiple of 256"
    "linear_q6_k_integer: weight shape mismatch" rowBytes inFeat outFeat w
  linearRows rowBytes (quantizeRow (inFeat / 256)) (treeRow dotQ6kQ8Block (inFeat / 256))
    x w y batch inFeat outFeat

def linearQ4KIntegerRs (x : List F) (w : List UInt8) (y : List F) (batch inFeat outFeat : Nat) :
    Res (List F) := do
  let rowBytes := inFeat / 256 * 144
  checkRows "linear_q4_k_integer_rs: in_feat not a multiple of 256"
    "linear_q4_k_integer_rs: weight shape mismatch" rowBytes inFeat outFeat w
  linearRows rowBytes (quantizeRow (inFeat / 256)) (runningRow dotQ4kQ8Block (inFeat / 256))
    x w y batch inFeat outFeat

def linearQ6KIntegerRs (x : List F) (w : List UInt8) (y : List F) (batch inFeat outFeat : Nat) :
    Res (List F) := do
  let rowBytes := inFeat / 256 * 210
  checkRows "linear_q6_k_integer_rs: in_feat not a multiple of 256"
    "linear_q6_k_integer_rs: weight shape mismatch" rowBytes inFeat outFeat w
  linearRows rowBytes (quantizeRow (inFeat / 256)) (runningRow dotQ6kQ8Block (inFeat / 256))
    x w y batch inFeat outFeat

def linearQ6KFused (x : List F) (w : List UInt8) (y : List F) (batch inFeat outFeat : Nat) :
    Res (List F) := do
  let rowBytes := inFeat / 256 * 210
  checkRows "linear_q6_k_fused: in_feat not a multiple of 256"
    "linear_q6_k_fused: weight shape mismatch" rowBytes inFeat outFeat w
  linearRows rowBytes pure (fun xRow wRow => q6kFusedF32Dot xRow wRow inFeat) x w y batch inFeat outFeat

/-- The Q4_K linear does not check that the weights hold `out_feat` rows. -/
def linearQ4KFused (x : List F) (w : List UInt8) (y : List F) (batch inFeat outFeat : Nat) :
    Res (List F) :=
  if inFeat % 256 ≠ 0 then
    .error (.err (.internal "linear_q4_k_fused: in_feat not a multiple of 256"))
  else
    linearRows (inFeat / 256 * 144) pure (fun xRow wRow => canonicalDotQ4kFused xRow wRow inFeat)
      x w y batch inFeat outFeat

/-- The whole matrix is decoded once, then reduced row by row. -/
def linearQ4_0Cpu (x : List F) (w : List UInt8) (y : List F) (batch inFeat outFeat : Nat) :
    Res (List F) :=
  if inFeat % 32 ≠ 0 then .error (.err (.internal "linear_q4_0: in_feat must be multiple of 32"))
  else do
    let blocks ← word (outFeat * (inFeat / 32))
    let expected ← word (blocks * 18)
    if w.length ≠ expected then .error (.err (.internal "linear_q4_0: weight blob length mismatch"))
    else do
      let xLen ← word (batch * inFeat)
      if x.length ≠ xLen then .error (.err (.internal "linear_q4_0: x size mismatch"))
      else do
        let yLen ← word (batch * outFeat)
        if y.length ≠ yLen then .error (.err (.internal "linear_q4_0: y_out size mismatch"))
        else do
          let wF32 ← dequantizeQ4_0 w
          linearRows inFeat pure (fun xRow wRow => canonicalDot xRow wRow inFeat)
            x wF32 y batch inFeat outFeat

/-! ### Row-parallel linears -/

/-- The frame of the parallel linears: with one thread they are their serial twins. -/
def parallelLinear (ragged short : String) (rowBytes : Nat) (serial : Res (List F))
    (tasks : (grain : Nat) → Res (List F)) (w : List UInt8) (inFeat outFeat threads : Nat) :
    Res (List F) :=
  if inFeat % 256 ≠ 0 then .error (.err (.internal ragged))
  else if threads ≤ 1 then serial
  else do
    let need ← word (outFeat * rowBytes)
    if w.length < need then .error (.err (.internal short))
    else do
      let count ← word (threads * 4)
      tasks (grainOf outFeat count)

def linearQ4KIntegerParallel (sched : Schedule) (x : List F) (w : List UInt8) (y : List F)
    (batch inFeat outFeat threads : Nat) : Res (List F) :=
  let rowBytes := inFeat / 256 * 144
  parallelLinear "linear_q4_k_integer_parallel: in_feat % 256"
    "linear_q4_k_integer_parallel: weight shape" rowBytes
    (linearQ4KInteger x w y batch inFeat outFeat)
    (fun grain => linearParallel rowBytes (quantizeRow (inFeat / 256))
      (treeRow dotQ4kQ8Block (inFeat / 256)) sched grain x w y batch inFeat outFeat)
    w inFeat outFeat threads

def linearQ6KIntegerParallel (sched : Schedule) (x : List F) (w : List UInt8) (y : List F)
    (batch inFeat outFeat threads : Nat) : Res (List F) :=
  let rowBytes := inFeat / 256 * 210
  parallelLinear "linear_q6_k_integer_parallel: in_feat % 256"
    "linear_q6_k_integer_parallel: weight shape" rowBytes
    (linearQ6KInteger x w y batch inFeat outFeat)
    (fun grain => linearParallel rowBytes (quantizeRow (inFeat / 256))
      (treeRow dotQ6kQ8Block (inFeat / 256)) sched grain x w y batch inFeat outFeat)
    w inFeat outFeat threads

def linearQ4KFusedParallel (sched : Schedule) (x : List F) (w : List UInt8) (y : List F)
    (batch inFeat outFeat threads : Nat) : Res (List F) :=
  let rowBytes := inFeat / 256 * 144
  parallelLinear "linear_q4_k_fused_parallel: in_feat not a multiple of 256"
    "linear_q4_k_fused_parallel: weight shape mismatch" rowBytes
    (linearQ4KFused x w y batch inFeat outFeat)
    (fun grain => linearParallel rowBytes pure
      (fun xRow wRow => unwrapOr (canonicalDotQ4kFused xRow wRow inFeat) F32.zero)
      sched grain x w y batch inFeat outFeat)
    w inFeat outFeat threads

def linearQ6KFusedParallel (sched : Schedule) (x : List F) (w : List UInt8) (y : List F)
    (batch inFeat outFeat threads : Nat) : Res (List F) :=
  let rowBytes := inFeat / 256 * 210
  parallelLinear "linear_q6_k_fused_parallel: in_feat not a multiple of 256"
    "linear_q6_k_fused_parallel: weight shape mismatch" rowBytes
    (linearQ6KFused x w y batch inFeat outFeat)
    (fun grain => linearParallel rowBytes pure
      (fun xRow wRow => unwrapOr (q6kFusedF32Dot xRow wRow inFeat) F32.zero)
      sched grain x w y batch inFeat outFeat)
    w inFeat outFeat threads

/-! ### Output lengths -/

section Lengths

variable {x : List F} {w : List UInt8} {y y' : List F} {batch inFeat outFeat threads : Nat}

omit [F32 F] in
private theorem length_checked {check : Res Unit} {run : Res (List F)}
    (h : (check >>= fun _ => run) = .ok y')
    (hrun : ∀ out, run = .ok out → out.length = y.length) : y'.length = y.length := by
  obtain ⟨-, -, h⟩ := bind_eq_ok.mp h
  exact hrun y' h

theorem length_linearQ6KInteger (h : linearQ6KInteger x w y batch inFeat outFeat = .ok y') :
    y'.length = y.length :=
  length_checked h fun _ => length_linearRows

theorem length_linearQ4KIntegerRs (h : linearQ4KIntegerRs x w y batch inFeat outFeat = .ok y') :
    y'.length = y.length :=
  length_checked h fun _ => length_linearRows

theorem length_linearQ6KIntegerRs (h : linearQ6KIntegerRs x w y batch inFeat outFeat = .ok y') :
    y'.length = y.length :=
  length_checked h fun _ => length_linearRows

theorem length_linearQ4KFused (h : linearQ4KFused x w y batch inFeat outFeat = .ok y') :
    y'.length = y.length := by
  unfold linearQ4KFused at h
  split at h
  next => cases h
  next => exact length_linearRows h

theorem length_linearQ4_0Cpu (h : linearQ4_0Cpu x w y batch inFeat outFeat = .ok y') :
    y'.length = y.length := by
  unfold linearQ4_0Cpu at h
  split at h
  next => cases h
  next =>
    obtain ⟨blocks, -, h⟩ := bind_eq_ok.mp h
    obtain ⟨expected, -, h⟩ := bind_eq_ok.mp h
    split at h
    next => cases h
    next =>
      obtain ⟨xLen, -, h⟩ := bind_eq_ok.mp h
      split at h
      next => cases h
      next =>
        obtain ⟨yLen, -, h⟩ := bind_eq_ok.mp h
        split at h
        next => cases h
        next =>
          obtain ⟨wF32, -, h⟩ := bind_eq_ok.mp h
          exact length_linearRows h

omit [F32 F] in
private theorem length_parallelLinear {ragged short : String} {rowBytes : Nat} {serial : Res (List F)}
    {tasks : Nat → Res (List F)}
    (h : parallelLinear ragged short rowBytes serial tasks w inFeat outFeat threads = .ok y')
    (hserial : serial = .ok y' → y'.length = y.length)
    (htasks : ∀ grain, tasks grain = .ok y' → y'.length = y.length) : y'.length = y.length := by
  unfold parallelLinear at h
  split at h
  next => cases h
  next =>
    split at h
    next => exact hserial h
    next =>
      obtain ⟨need, -, h⟩ := bind_eq_ok.mp h
      split at h
      next => cases h
      next =>
        obtain ⟨count, -, h⟩ := bind_eq_ok.mp h
        exact htasks _ h

theorem length_linearQ6KIntegerParallel {sched : Schedule}
    (h : linearQ6KIntegerParallel sched x w y batch inFeat outFeat threads = .ok y') :
    y'.length = y.length := by
  unfold linearQ6KIntegerParallel at h
  exact length_parallelLinear h length_linearQ6KInteger fun _ => length_linearParallel

theorem length_linearQ4KFusedParallel {sched : Schedule}
    (h : linearQ4KFusedParallel sched x w y batch inFeat outFeat threads = .ok y') :
    y'.length = y.length := by
  unfold linearQ4KFusedParallel at h
  exact length_parallelLinear h length_linearQ4KFused fun _ => length_linearParallel

end Lengths

end VitniTensor
