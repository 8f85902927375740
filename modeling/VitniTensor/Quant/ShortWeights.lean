import VitniTensor.Lib.Checks
import VitniTensor.Quant.Parallel

/-!
# Short weights

What the quantized kernels do when a row is no whole number of super-blocks, or when the bytes
hold too few rows. Most of them check both. The fused Q4_K linear does not check the number of
rows, and two of the row kernels do not check the length of the row.
-/

namespace VitniTensor

open Outcome Fill

variable {F : Type} [F32 F]

/-! ### Row kernels without an error -/

theorem faults_addTerm {term : Nat → Res F} (hterm : ∀ i, Faults (term i)) (j i : Nat) (lanes : List F) :
    Faults (addTerm term j i lanes) := by
  unfold addTerm
  apply (hterm i).bind
  intro p _
  apply (faults_index lanes j).bind
  intro acc _
  exact faults_store lanes j _

theorem faults_addLanes {n : Nat} {term : Nat → Res F} (hterm : ∀ i, Faults (term i)) (lanes : List F) :
    Faults (addLanes n term lanes) := by
  unfold addLanes
  apply Faults.bind
  · exact faults_forFrom (fun g l => faults_forFrom (fun j l => faults_addTerm hterm _ _ l) l) lanes
  · intro groups _
    exact faults_forFrom (fun i l => faults_addTerm hterm _ _ l) groups

theorem faults_productAt (x w : List F) (i : Nat) : Faults (productAt x w i) := by
  unfold productAt
  apply (faults_index x i).bind
  intro a _
  apply (faults_index w i).bind
  intro b _
  exact .of_ok ⟨_, rfl⟩

theorem faults_fusedStep (x buf : List F) (n b : Nat) (s : List F × List F) : Faults (fusedStep x buf n b s) := by
  unfold fusedStep
  dsimp only
  apply (faults_slice x _ _).bind
  intro xs _
  apply (faults_addLanes (faults_productAt xs buf) s.1).bind
  intro lanes _
  split
  next =>
    obtain ⟨sum, hsum⟩ := fixedTree_ok lanes
    rw [hsum]
    exact .of_ok ⟨_, rfl⟩
  next => exact .of_ok ⟨_, rfl⟩

theorem faults_fusedLoop {size : Nat} (decode : Vector UInt8 size → List F) (x : List F) (n b : Nat)
    (blocks : List (Vector UInt8 size)) (s : List F × List F) : Faults (fusedLoop decode x n b blocks s) := by
  induction blocks generalizing b s with
  | nil => exact .of_ok ⟨s, rfl⟩
  | cons block blocks ih =>
    unfold fusedLoop
    split
    next => exact .of_ok ⟨s, rfl⟩
    next => exact (faults_fusedStep x _ n b s).bind fun s' _ => ih (b + 1) s'

/-- The fused Q4_K kernel refuses ragged bytes only. -/
theorem faults_canonicalDotQ4kFused {x : List F} {w : List UInt8} {n : Nat} (hw : w.length % 144 = 0) :
    Faults (canonicalDotQ4kFused x w n) := by
  unfold canonicalDotQ4kFused
  rw [if_neg (not_not_intro hw)]
  split
  next => exact .of_ok ⟨_, rfl⟩
  next =>
    apply (faults_fusedLoop q4kWeights x n 0 _ _).bind
    intro s _
    exact .of_ok (fixedTree_ok s.2)

/-- The loop over the blocks has no error of its own. -/
theorem faults_integerParts {x : List F} {n : Nat} (b : Nat) (blocks : List (Vector UInt8 144)) (parts : List F) :
    Faults (integerParts x n b blocks parts) := by
  induction blocks generalizing b parts with
  | nil => exact .of_ok ⟨parts, rfl⟩
  | cons block blocks ih =>
    unfold integerParts
    dsimp only
    split
    next => exact .of_ok ⟨parts, rfl⟩
    next =>
      apply (faults_slice x _ _).bind
      intro xs hxs
      -- at most 256 activations, so the quantized block is in range
      have hlength := length_of_slice hxs
      obtain ⟨xq, hxq, hbounded⟩ := quantizeBlockQ8_ok (F := F) (x := xs) (by omega)
      rw [hxq, ok_bind]
      obtain ⟨part, hpart⟩ := dotQ4kQ8Block_ok block hbounded (min 256 (n - b * 256))
      rw [hpart, ok_bind]
      exact ih (b + 1) (parts ++ [part])

/-- And so does the integer kernel. -/
theorem faults_integerDotQ4k {x : List F} {w : List UInt8} {n : Nat} (hw : w.length % 144 = 0) :
    Faults (integerDotQ4k x w n) := by
  unfold integerDotQ4k
  rw [if_neg (not_not_intro hw)]
  split
  next => exact .of_ok ⟨_, rfl⟩
  next =>
    apply (faults_integerParts 0 _ _).bind
    intro parts _
    exact .of_ok (fixedTree_ok parts)

/-! ### Linears over all batches -/

section Rows

variable {ω α : Type} {width batch inFeat outFeat : Nat} {prepare : List F → Res α} {row : α → List ω → Res F}
  {x y : List F} {w : List ω}

omit [F32 F] in
theorem faults_linearRows (hprepare : ∀ xRow : List F, xRow.length = inFeat → Faults (prepare xRow))
    (hrow : ∀ xRow a wRow, xRow.length = inFeat → prepare xRow = .ok a → wRow.length = width →
      Faults (row a wRow)) : Faults (linearRows width prepare row x w y batch inFeat outFeat) := by
  have hwidth : ∀ {k n : Nat}, (k + 1) * n - k * n = n := by
    intro k n
    rw [Nat.succ_mul, Nat.add_sub_cancel_left]
  apply faults_forFrom
  intro b z
  apply (faults_slice x _ _).bind
  intro xRow hxRow
  have hlength := (length_of_slice hxRow).trans hwidth
  apply (hprepare xRow hlength).bind
  intro a ha
  apply faults_forFrom
  intro o z
  apply Faults.bind
  · apply (faults_slice w _ _).bind
    intro wRow hwRow
    exact hrow xRow a wRow hlength ha ((length_of_slice hwRow).trans hwidth)
  · exact fun v _ => faults_store z _ v

end Rows

/-! ### The calls -/

inductive QuantLinear where
  | q4kFused | q4kFusedParallel | q6kFused | q4kInteger | q6kInteger | q4kIntegerRs | q6kIntegerRs
  deriving DecidableEq, Repr

def QuantLinear.blockBytes : QuantLinear → Nat
  | q4kFused | q4kFusedParallel | q4kInteger | q4kIntegerRs => 144
  | q6kFused | q6kInteger | q6kIntegerRs => 210

/-- The arguments of a linear, with activations and outputs of the length that the sizes ask for,
and any bytes as weights. -/
structure LinearCall (F : Type) where
  x : List F
  w : List UInt8
  y : List F
  batch : Nat
  inFeat : Nat
  outFeat : Nat
  threads : Nat
  length_x : x.length = batch * inFeat
  length_y : y.length = batch * outFeat
  memory : w.length < 2 ^ 63

namespace LinearCall

variable (c : LinearCall F) (k : QuantLinear)

def run (sched : Schedule) : QuantLinear → Res (List F)
  | .q4kFused => linearQ4KFused c.x c.w c.y c.batch c.inFeat c.outFeat
  | .q4kFusedParallel => linearQ4KFusedParallel sched c.x c.w c.y c.batch c.inFeat c.outFeat c.threads
  | .q6kFused => linearQ6KFused c.x c.w c.y c.batch c.inFeat c.outFeat
  | .q4kInteger => linearQ4KInteger c.x c.w c.y c.batch c.inFeat c.outFeat
  | .q6kInteger => linearQ6KInteger c.x c.w c.y c.batch c.inFeat c.outFeat
  | .q4kIntegerRs => linearQ4KIntegerRs c.x c.w c.y c.batch c.inFeat c.outFeat
  | .q6kIntegerRs => linearQ6KIntegerRs c.x c.w c.y c.batch c.inFeat c.outFeat

/-- The bytes of `out_feat` rows. -/
def need : Nat :=
  c.outFeat * (c.inFeat / 256 * k.blockBytes)

/-- Ragged rows, or too few of them. -/
def Bad : Prop :=
  c.inFeat % 256 ≠ 0 ∨ c.w.length < c.need k

/-- Where a linear does what it should: on ragged rows always. On whole ones the fused Q4_K linear
needs all of them, the others a size that does not overflow, and the parallel one also a number of
tasks that does not. -/
def Guarded : QuantLinear → Prop
  | .q4kFused => c.inFeat % 256 ≠ 0 ∨ c.need .q4kFused ≤ c.w.length
  | .q4kFusedParallel => c.inFeat % 256 ≠ 0 ∨
      if c.threads ≤ 1 then c.need .q4kFused ≤ c.w.length
      else c.need .q4kFused < wordSize ∧ (c.need .q4kFused ≤ c.w.length → c.threads * 4 < wordSize)
  | k => c.inFeat % 256 ≠ 0 ∨ c.need k < wordSize

end LinearCall

/-- Bad arguments are an error, and nothing else stops the run. -/
def Refuses {α : Type} (bad : Prop) (run : Res α) : Prop :=
  (bad → ∃ e, run = err e) ∧ (¬bad → ∃ a, run = .ok a)

omit [F32 F] in
theorem not_refuses_of_panic {α : Type} {bad : Prop} {run : Res α} {p : Panic} (h : run = panic p) :
    ¬Refuses bad run := by
  rintro ⟨hbad, hgood⟩
  by_cases hb : bad
  · obtain ⟨e, he⟩ := hbad hb
    rw [h] at he
    cases he
  · obtain ⟨a, ha⟩ := hgood hb
    rw [h] at ha
    cases ha

theorem not_refuses_of_faults {α : Type} {bad : Prop} {run : Res α} (hb : bad) (h : Faults run) :
    ¬Refuses bad run := by
  rintro ⟨hbad, -⟩
  obtain ⟨e, he⟩ := hbad hb
  exact h.errorless e he

/-- A run behind the shape checks. -/
theorem refuses_checked {ragged short : String} {rowBytes inFeat outFeat : Nat} {w : List UInt8} {α : Type}
    {run : Res α} (hrun : inFeat % 256 = 0 → outFeat * rowBytes ≤ w.length → ∃ a, run = .ok a) :
    Refuses (inFeat % 256 ≠ 0 ∨ w.length < outFeat * rowBytes)
        (checkRows ragged short rowBytes inFeat outFeat w >>= fun _ => run) ↔
      inFeat % 256 ≠ 0 ∨ outFeat * rowBytes < wordSize := by
  unfold checkRows
  by_cases hwhole : inFeat % 256 = 0
  · rw [if_neg (not_not_intro hwhole)]
    by_cases hneed : outFeat * rowBytes < wordSize
    · rw [word_of_lt hneed, ok_bind]
      refine ⟨fun _ => .inr hneed, fun _ => ?_⟩
      by_cases hshort : w.length < outFeat * rowBytes
      · rw [if_pos hshort]
        exact ⟨fun _ => ⟨_, rfl⟩, fun h => absurd (.inr hshort) h⟩
      · rw [if_neg hshort]
        refine ⟨fun h => ?_, fun _ => hrun hwhole (Nat.le_of_not_lt hshort)⟩
        rcases h with h | h
        · exact absurd hwhole h
        · exact absurd h hshort
    · have hpanic : (word (outFeat * rowBytes) : Res Nat) = panic .overflow := if_neg hneed
      rw [hpanic]
      refine ⟨fun h => absurd h (not_refuses_of_panic rfl), fun h => ?_⟩
      rcases h with h | h
      · exact absurd hwhole h
      · exact absurd h hneed
  · rw [if_pos hwhole]
    exact ⟨fun _ => .inl hwhole, fun _ => ⟨fun _ => ⟨_, rfl⟩, fun h => absurd (.inl hwhole) h⟩⟩

/-! ### The linears -/

namespace LinearCall

variable (c : LinearCall F)

omit [F32 F] in
theorem holdsRows {size : Nat} (hwhole : c.inFeat % 256 = 0)
    (hneed : c.outFeat * (c.inFeat / 256 * size) ≤ c.w.length) : HoldsRows size c.inFeat c.outFeat c.w :=
  ⟨hwhole, hneed, c.memory⟩

/-- An integer linear on enough whole rows. -/
theorem integer_total {size : Nat} {row : List (Q8Block F) → List UInt8 → Res F}
    (hrow : ∀ (xRow : List F) xq (wRow : List UInt8), xRow.length = c.inFeat / 256 * 256 →
      quantizeRow (c.inFeat / 256) xRow = .ok xq → wRow.length = c.inFeat / 256 * size → ∃ v, row xq wRow = .ok v)
    (hwhole : c.inFeat % 256 = 0) (hneed : c.outFeat * (c.inFeat / 256 * size) ≤ c.w.length) :
    ∃ y', linearRows (c.inFeat / 256 * size) (quantizeRow (c.inFeat / 256)) row c.x c.w c.y c.batch c.inFeat c.outFeat =
      .ok y' := by
  have hfeatures := (c.holdsRows hwhole hneed).features
  apply linearRows_total c.length_x c.length_y hneed
  · intro xRow hx
    obtain ⟨q, -, -, hq⟩ := quantizeRow_ok (hx.trans hfeatures)
    exact ⟨_, hq⟩
  · intro xRow xq wRow hx hxq hw
    exact hrow xRow xq wRow (hx.trans hfeatures) hxq hw

/-- The fused Q4_K linear on enough whole rows. -/
theorem q4kFused_total (hwhole : c.inFeat % 256 = 0) (hneed : c.need .q4kFused ≤ c.w.length) :
    ∃ y', linearQ4KFused c.x c.w c.y c.batch c.inFeat c.outFeat = .ok y' := by
  have hfeatures := (c.holdsRows hwhole hneed).features
  unfold linearQ4KFused
  rw [if_neg (not_not_intro hwhole)]
  apply linearRows_total c.length_x c.length_y hneed (fun xRow _ => ⟨xRow, rfl⟩)
  intro xRow a wRow hx ha hw
  cases ha
  rw [hfeatures]
  exact canonicalDotQ4kFused_row (hx.trans hfeatures) hw

/-- On whole rows it has no error to return. -/
theorem faults_q4kFused (hwhole : c.inFeat % 256 = 0) :
    Faults (linearQ4KFused c.x c.w c.y c.batch c.inFeat c.outFeat) := by
  unfold linearQ4KFused
  rw [if_neg (not_not_intro hwhole)]
  apply faults_linearRows (fun xRow _ => .of_ok ⟨xRow, rfl⟩)
  intro xRow a wRow _ _ hw
  apply faults_canonicalDotQ4kFused
  rw [hw, Nat.mul_mod_left]

theorem refuses_q4kFused : Refuses (c.Bad .q4kFused) (linearQ4KFused c.x c.w c.y c.batch c.inFeat c.outFeat) ↔
    c.inFeat % 256 ≠ 0 ∨ c.need .q4kFused ≤ c.w.length := by
  by_cases hwhole : c.inFeat % 256 = 0
  · by_cases hneed : c.need .q4kFused ≤ c.w.length
    · refine ⟨fun _ => .inr hneed, fun _ => ⟨fun hbad => ?_, fun _ => c.q4kFused_total hwhole hneed⟩⟩
      rcases hbad with hragged | hshort
      · exact absurd hwhole hragged
      · exact absurd hneed (Nat.not_le_of_lt hshort)
    · have hbad : c.Bad .q4kFused := .inr (Nat.lt_of_not_le hneed)
      refine ⟨fun h => absurd h (not_refuses_of_faults hbad (c.faults_q4kFused hwhole)), fun h => ?_⟩
      rcases h with h | h
      · exact absurd hwhole h
      · exact absurd h hneed
  · unfold linearQ4KFused
    rw [if_pos hwhole]
    exact ⟨fun _ => .inl hwhole, fun _ => ⟨fun _ => ⟨_, rfl⟩, fun h => absurd (.inl hwhole) h⟩⟩

/-- With one thread the parallel linear is the serial one. Else it checks the number of rows. -/
theorem refuses_q4kFusedParallel (sched : Schedule) :
    Refuses (c.Bad .q4kFusedParallel)
        (linearQ4KFusedParallel sched c.x c.w c.y c.batch c.inFeat c.outFeat c.threads) ↔
      c.Guarded .q4kFusedParallel := by
  have hserial := c.refuses_q4kFused
  unfold linearQ4KFusedParallel parallelLinear Guarded
  dsimp only
  by_cases hwhole : c.inFeat % 256 = 0
  · rw [if_neg (not_not_intro hwhole)]
    by_cases hone : c.threads ≤ 1
    · rw [if_pos hone, if_pos hone]
      exact hserial
    · rw [if_neg hone, if_neg hone]
      have hnot : ∀ {p : Prop}, c.inFeat % 256 ≠ 0 ∨ p → p := fun h => h.resolve_left (not_not_intro hwhole)
      by_cases hfits : c.need .q4kFused < wordSize
      · have hword : (word (c.outFeat * (c.inFeat / 256 * 144)) : Res Nat) = .ok (c.need .q4kFused) := word_of_lt hfits
        rw [hword, ok_bind]
        by_cases hneed : c.need .q4kFused ≤ c.w.length
        · rw [if_neg (Nat.not_lt.mpr hneed)]
          by_cases hcount : c.threads * 4 < wordSize
          · rw [word_of_lt hcount, ok_bind,
              q4kFusedTasks_eq sched _ _ _ _ _ _ (c.holdsRows hwhole hneed) (grainOf_pos _ _)]
            refine ⟨fun _ => .inr ⟨hfits, fun _ => hcount⟩, fun _ => hserial.mpr (.inr hneed)⟩
          · have hpanic : (word (c.threads * 4) : Res Nat) = panic .overflow := if_neg hcount
            rw [hpanic]
            exact ⟨fun h => absurd h (not_refuses_of_panic rfl), fun h => absurd ((hnot h).2 hneed) hcount⟩
        · rw [if_pos (Nat.lt_of_not_le hneed)]
          refine ⟨fun _ => .inr ⟨hfits, fun h => absurd h hneed⟩, fun _ => ⟨fun _ => ⟨_, rfl⟩, fun h => ?_⟩⟩
          exact absurd (.inr (Nat.lt_of_not_le hneed)) h
      · have hpanic : (word (c.outFeat * (c.inFeat / 256 * 144)) : Res Nat) = panic .overflow := if_neg hfits
        rw [hpanic]
        exact ⟨fun h => absurd h (not_refuses_of_panic rfl), fun h => absurd (hnot h).1 hfits⟩
  · rw [if_pos hwhole]
    exact ⟨fun _ => .inl hwhole, fun _ => ⟨fun _ => ⟨_, rfl⟩, fun h => absurd (.inl hwhole) h⟩⟩

/-- The linears that check both sizes before the rows. -/
theorem refuses_q6kFused :
    Refuses (c.Bad .q6kFused) (linearQ6KFused c.x c.w c.y c.batch c.inFeat c.outFeat) ↔ c.Guarded .q6kFused := by
  apply refuses_checked
  intro hwhole hneed
  have hfeatures := (c.holdsRows hwhole hneed).features
  apply linearRows_total c.length_x c.length_y hneed (fun xRow _ => ⟨xRow, rfl⟩)
  intro xRow a wRow hx ha hw
  cases ha
  rw [hfeatures]
  exact q6kFusedF32Dot_row (hx.trans hfeatures) hw

theorem refuses_q4kInteger :
    Refuses (c.Bad .q4kInteger) (linearQ4KInteger c.x c.w c.y c.batch c.inFeat c.outFeat) ↔ c.Guarded .q4kInteger := by
  apply refuses_checked
  apply c.integer_total
  intro xRow xq wRow hx hxq hw
  exact treeRow_ok (by decide) (fun block q hq => dotQ4kQ8Block_ok block hq 256) hx hxq hw

theorem refuses_q6kInteger :
    Refuses (c.Bad .q6kInteger) (linearQ6KInteger c.x c.w c.y c.batch c.inFeat c.outFeat) ↔ c.Guarded .q6kInteger := by
  apply refuses_checked
  apply c.integer_total
  intro xRow xq wRow hx hxq hw
  exact treeRow_ok (by decide) (fun block q hq => dotQ6kQ8Block_ok block hq 256) hx hxq hw

theorem refuses_q4kIntegerRs :
    Refuses (c.Bad .q4kIntegerRs) (linearQ4KIntegerRs c.x c.w c.y c.batch c.inFeat c.outFeat) ↔
      c.Guarded .q4kIntegerRs := by
  apply refuses_checked
  apply c.integer_total
  intro xRow xq wRow hx hxq hw
  exact runningRow_ok (by decide) (fun block q hq => dotQ4kQ8Block_ok block hq 256) hx hxq hw

theorem refuses_q6kIntegerRs :
    Refuses (c.Bad .q6kIntegerRs) (linearQ6KIntegerRs c.x c.w c.y c.batch c.inFeat c.outFeat) ↔
      c.Guarded .q6kIntegerRs := by
  apply refuses_checked
  apply c.integer_total
  intro xRow xq wRow hx hxq hw
  exact runningRow_ok (by decide) (fun block q hq => dotQ6kQ8Block_ok block hq 256) hx hxq hw

/-- One case per linear. -/
theorem refuses (sched : Schedule) (k : QuantLinear) : Refuses (c.Bad k) (c.run sched k) ↔ c.Guarded k := by
  cases k with
  | q4kFused => exact c.refuses_q4kFused
  | q4kFusedParallel => exact c.refuses_q4kFusedParallel sched
  | q6kFused => exact c.refuses_q6kFused
  | q4kInteger => exact c.refuses_q4kInteger
  | q6kInteger => exact c.refuses_q6kInteger
  | q4kIntegerRs => exact c.refuses_q4kIntegerRs
  | q6kIntegerRs => exact c.refuses_q6kIntegerRs

end LinearCall

/-! ### The row kernels -/

inductive RowKernel where
  | q4kFused | q6kFused | q4kInteger
  deriving DecidableEq, Repr

def RowKernel.blockBytes : RowKernel → Nat
  | q4kFused | q4kInteger => 144
  | q6kFused => 210

/-- The arguments of a row kernel, any at all. -/
structure RowCall (F : Type) where
  x : List F
  w : List UInt8
  n : Nat

namespace RowCall

variable (c : RowCall F) (k : RowKernel)

def run : RowKernel → Res F
  | .q4kFused => canonicalDotQ4kFused c.x c.w c.n
  | .q6kFused => q6kFusedF32Dot c.x c.w c.n
  | .q4kInteger => integerDotQ4k c.x c.w c.n

/-- The row decodes to fewer than `n` weights. -/
def Short : Prop :=
  c.w.length / k.blockBytes * 256 < c.n

/-- Where a row kernel refuses a short row. Two of them refuse only ragged bytes. -/
def Guarded : RowKernel → Prop
  | .q6kFused => True
  | k => c.w.length % 144 ≠ 0 ∨ ¬c.Short k

omit [F32 F] in
/-- A kernel whose only error is that of ragged bytes. -/
theorem ragged_only {run : Res F} {k : RowKernel} (hragged : c.w.length % 144 ≠ 0 → ∃ e, run = err e)
    (hwhole : c.w.length % 144 = 0 → Faults run) :
    (c.Short k → ∃ e, run = err e) ↔ c.w.length % 144 ≠ 0 ∨ ¬c.Short k := by
  constructor
  · intro h
    by_cases hw : c.w.length % 144 = 0
    · right
      intro hshort
      obtain ⟨e, he⟩ := h hshort
      exact (hwhole hw).errorless e he
    · exact .inl hw
  · intro h hshort
    exact hragged (h.resolve_right (not_not_intro hshort))

theorem errs_q6kFused (hshort : c.Short .q6kFused) : ∃ e, q6kFusedF32Dot c.x c.w c.n = err e := by
  have hn : c.n ≠ 0 := Nat.ne_of_gt (Nat.lt_of_le_of_lt (Nat.zero_le _) hshort)
  unfold q6kFusedF32Dot
  by_cases hw : c.w.length % 210 = 0
  · rw [if_neg (not_not_intro hw), if_neg hn]
    exact ⟨_, if_pos hshort⟩
  · exact ⟨_, if_pos hw⟩

/-- One case per kernel. -/
theorem errs : (c.Short k → ∃ e, c.run k = err e) ↔ c.Guarded k := by
  cases k with
  | q4kFused =>
    apply c.ragged_only
    · intro hw
      exact ⟨_, if_pos hw⟩
    · exact faults_canonicalDotQ4kFused
  | q6kFused => exact ⟨fun _ => trivial, fun _ => c.errs_q6kFused⟩
  | q4kInteger =>
    apply c.ragged_only
    · intro hw
      exact ⟨_, if_pos hw⟩
    · exact faults_integerDotQ4k

end RowCall

/-! ### Where short weights are refused -/

/-- Every linear, under any schedule of its threads, and every row kernel: what the claim asks of
them, they do under their own condition and no other. -/
theorem shortWeights_refused_iff (sched : Schedule) :
    (∀ (c : LinearCall F) (k : QuantLinear), Refuses (c.Bad k) (c.run sched k) ↔ c.Guarded k) ∧
      ∀ (c : RowCall F) (k : RowKernel), (c.Short k → ∃ e, c.run k = err e) ↔ c.Guarded k :=
  ⟨fun c k => c.refuses sched k, fun c k => c.errs k⟩

/-- One row of one block, and no weights at all. -/
def noWeights : LinearCall Cost where
  x := List.replicate 256 ⟨1⟩
  w := []
  y := [⟨1⟩]
  batch := 1
  inFeat := 256
  outFeat := 1
  threads := 1
  length_x := by rw [List.length_replicate]
  length_y := rfl
  memory := Nat.two_pow_pos 63

def inOrder : Schedule where
  order n _ := List.range n
  perm _ _ := .rfl

def emptyRow : RowCall Cost where
  x := [⟨1⟩]
  w := []
  n := 1

set_option maxRecDepth 2000 in
/-- With one thread the fused linear panics on missing weights, and two row kernels sum up nothing. -/
theorem noWeights_accepted :
    (noWeights.Bad .q4kFused ∧ noWeights.run inOrder .q4kFused = panic .outOfRange ∧
      noWeights.run inOrder .q4kFusedParallel = panic .outOfRange) ∧
      (emptyRow.Short .q4kFused ∧ ∃ v, emptyRow.run .q4kFused = .ok v) ∧
      emptyRow.Short .q4kInteger ∧ ∃ v, emptyRow.run .q4kInteger = .ok v :=
  ⟨⟨.inr (by decide), rfl, rfl⟩, ⟨Nat.zero_lt_one, _, rfl⟩, Nat.zero_lt_one, _, rfl⟩

end VitniTensor
