import Mathlib.Algebra.Group.Prod
import VitniTensor.Model.NetRuns

/-!
# The recording accelerator

It counts what is dispatched to it and leaves the work to the CPU. Over any run it sees seven products, a softmax
for every head, two norms and an activation for each layer, and one more norm and product for each step; of Gemma
it sees neither norms nor activations. Only a counter that would pass the largest word stops a run.
-/

namespace VitniTensor

open Outcome Exec

variable {F : Type} [F32 F]

structure RecordingAccelerator where
  matmulCount : Nat
  softmaxCount : Nat
  rmsNormCount : Nat
  siluCount : Nat
  /-- As `(m, n, k)`. -/
  maxMatmul : Option (Nat × Nat × Nat)
  deriving DecidableEq, Repr

namespace RecordingAccelerator

/-- `Default::default` -/
def new : RecordingAccelerator :=
  ⟨0, 0, 0, 0, none⟩

/-- `total` -/
def total (r : RecordingAccelerator) : Res Nat := do
  let sum ← word (r.matmulCount + r.softmaxCount)
  let sum ← word (sum + r.rmsNormCount)
  word (sum + r.siluCount)

/-- `m * n * k` -/
def volume (shape : Nat × Nat × Nat) : Res Nat := do
  let mn ← word (shape.1 * shape.2.1)
  word (mn * shape.2.2)

/-- The larger of the shapes, the first one of two that are alike. -/
def larger (seen : Option (Nat × Nat × Nat)) (shape : Nat × Nat × Nat) : Res (Nat × Nat × Nat) :=
  match seen with
  | none => pure shape
  | some old => do
    let new ← volume shape
    let most ← volume old
    pure (if new > most then shape else old)

def noteShape (lhs rhs : Tensor F) : Exec RecordingAccelerator Error Unit :=
  match lhs.shape.dims, rhs.shape.dims with
  | [m, k], [_, n] => do
    let r ← state
    let shape ← lift (larger r.maxMatmul (m, n, k))
    update fun r => { r with maxMatmul := some shape }
  | _, _ => pure ()

/-- One more in one of the counters. -/
def bump (count : RecordingAccelerator → Nat) (put : Nat → RecordingAccelerator → RecordingAccelerator) :
    Exec RecordingAccelerator Error Unit := do
  let r ← state
  let n ← lift (word (count r + 1))
  update (put n)

def noteMatmul (lhs rhs : Tensor F) : Exec RecordingAccelerator Error Unit := do
  bump matmulCount fun n r => { r with matmulCount := n }
  noteShape lhs rhs

def noteSoftmax : Exec RecordingAccelerator Error Unit :=
  bump softmaxCount fun n r => { r with softmaxCount := n }

def noteRmsNorm : Exec RecordingAccelerator Error Unit :=
  bump rmsNormCount fun n r => { r with rmsNormCount := n }

def noteSilu : Exec RecordingAccelerator Error Unit :=
  bump siluCount fun n r => { r with siluCount := n }

/-- `impl Accelerator for RecordingAccelerator` -/
def accelerator : Accelerator F RecordingAccelerator Error where
  fromError := id
  matmul x y := do
    noteMatmul x y
    lift (x.matmul y)
  softmaxLastDim t := do
    noteSoftmax
    lift t.softmaxLastDim
  rmsNorm x w eps := do
    noteRmsNorm
    lift (x.rmsNorm w eps)
  silu t := do
    noteSilu
    lift t.silu

/-! ### What is counted -/

/-- The product of a shape is computed without a panic. -/
def Fits (shape : Nat × Nat × Nat) : Prop :=
  shape.1 * shape.2.1 < wordSize ∧ shape.1 * shape.2.1 * shape.2.2 < wordSize

instance : DecidablePred Fits :=
  fun _ => inferInstanceAs (Decidable (_ ∧ _))

/-- So is that of the shape seen so far. -/
def LargestFits (r : RecordingAccelerator) : Prop :=
  ∀ shape ∈ r.maxMatmul, Fits shape

instance : DecidablePred LargestFits :=
  fun r => inferInstanceAs (Decidable (∀ shape ∈ r.maxMatmul, Fits shape))

/-- Products, softmaxes, norms and activations, and `1` for a shape whose product is no word. -/
def counts (r : RecordingAccelerator) : Nat × Nat × Nat × Nat × Nat :=
  (r.matmulCount, r.softmaxCount, r.rmsNormCount, r.siluCount, if r.LargestFits then 0 else 1)

/-- These counts are too large for a recorder. -/
def Over (counts : Nat × Nat × Nat × Nat × Nat) : Prop :=
  wordSize ≤ counts.1 ∨ wordSize ≤ counts.2.1 ∨ wordSize ≤ counts.2.2.1 ∨ wordSize ≤ counts.2.2.2.1 ∨
    0 < counts.2.2.2.2

/-- A recorder is lost to counts that are too large, and to nothing else. -/
def overflow : Loss (Nat × Nat × Nat × Nat × Nat) Error where
  short counts stop := stop = .panic .overflow ∧ Over counts
  more l _ h := by
    refine ⟨h.1, ?_⟩
    rcases h.2 with h | h | h | h | h
    · exact .inl (Nat.le_add_right_of_le h)
    · exact .inr (.inl (Nat.le_add_right_of_le h))
    · exact .inr (.inr (.inl (Nat.le_add_right_of_le h)))
    · exact .inr (.inr (.inr (.inl (Nat.le_add_right_of_le h))))
    · exact .inr (.inr (.inr (.inr (Nat.add_pos_left h _))))

/-- Some counter, or the product of the largest shape so far, does not hold what is added to it. -/
def RunsOver (r : RecordingAccelerator) (matmuls softmaxes norms activations : Nat) : Prop :=
  wordSize ≤ r.matmulCount + matmuls ∨ wordSize ≤ r.softmaxCount + softmaxes ∨
    wordSize ≤ r.rmsNormCount + norms ∨ wordSize ≤ r.siluCount + activations ∨ ¬r.LargestFits

theorem runsOver_of_over {r : RecordingAccelerator} {matmuls softmaxes norms activations : Nat}
    (h : Over (r.counts + (matmuls, softmaxes, norms, activations, 0))) :
    r.RunsOver matmuls softmaxes norms activations := by
  rcases h with h | h | h | h | h
  · exact .inl h
  · exact .inr (.inl h)
  · exact .inr (.inr (.inl h))
  · exact .inr (.inr (.inr (.inl h)))
  · refine .inr (.inr (.inr (.inr fun hfits => ?_)))
    simp [counts, hfits] at h

theorem word_error {n : Nat} {stop : Stop Error} (h : (word n : Res Nat) = .error stop) :
    stop = .panic .overflow ∧ wordSize ≤ n := by
  unfold word at h
  split at h
  next => cases h
  next hover =>
    cases h
    exact ⟨rfl, Nat.le_of_not_lt hover⟩

theorem volume_error {shape : Nat × Nat × Nat} {stop : Stop Error} (h : volume shape = .error stop) :
    stop = .panic .overflow ∧ ¬Fits shape := by
  rcases bind_eq_error.mp h with h | ⟨mn, hmn, h⟩
  · obtain ⟨hstop, hover⟩ := word_error h
    exact ⟨hstop, fun hfits => absurd hfits.1 (Nat.not_lt.mpr hover)⟩
  · obtain ⟨-, rfl⟩ := word_eq_ok.mp hmn
    obtain ⟨hstop, hover⟩ := word_error h
    exact ⟨hstop, fun hfits => absurd hfits.2 (Nat.not_lt.mpr hover)⟩

theorem fits_of_volume {shape : Nat × Nat × Nat} {v : Nat} (h : volume shape = .ok v) : Fits shape := by
  obtain ⟨mn, hmn, h⟩ := bind_eq_ok.mp h
  obtain ⟨hrows, rfl⟩ := word_eq_ok.mp hmn
  exact ⟨hrows, (word_eq_ok.mp h).1⟩

/-- Beside a shape that fits only the one seen before can stop the comparison. -/
theorem larger_error {seen : Option (Nat × Nat × Nat)} {shape : Nat × Nat × Nat} {stop : Stop Error}
    (hshape : Fits shape) (h : larger seen shape = .error stop) :
    stop = .panic .overflow ∧ ∃ old ∈ seen, ¬Fits old := by
  cases seen with
  | none => cases h
  | some old =>
    rcases bind_eq_error.mp h with h | ⟨new, -, h⟩
    · exact absurd hshape (volume_error h).2
    · rcases bind_eq_error.mp h with h | ⟨most, -, h⟩
      · obtain ⟨hstop, hold⟩ := volume_error h
        exact ⟨hstop, old, rfl, hold⟩
      · cases h

theorem larger_ok {seen : Option (Nat × Nat × Nat)} {shape found : Nat × Nat × Nat} (hshape : Fits shape)
    (h : larger seen shape = .ok found) : Fits found ∧ ∀ old ∈ seen, Fits old := by
  cases seen with
  | none =>
    cases h
    exact ⟨hshape, fun _ hmem => nomatch hmem⟩
  | some old =>
    obtain ⟨new, -, h⟩ := bind_eq_ok.mp h
    obtain ⟨most, hmost, h⟩ := bind_eq_ok.mp h
    have hold := fits_of_volume hmost
    cases h
    refine ⟨?_, fun _ hmem => by cases hmem; exact hold⟩
    split
    · exact hshape
    · exact hold

omit [F32 F] in
/-- Shapes are not counted; that of a row by a matrix always fits. -/
theorem noteShape_counts {lhs rhs : Tensor F} {k n : Nat} (hlhs : lhs.shape.dims = [1, k])
    (hrhs : rhs.shape.dims = [k, n]) (hcells : n * k < wordSize) (r : RecordingAccelerator) :
    wp (noteShape lhs rhs) (fun _ r' => r'.counts = r.counts) (fun stop _ => overflow.short r.counts stop) r := by
  have hshape : Fits (1, n, k) := by
    refine ⟨?_, ?_⟩
    · rw [Nat.one_mul]
      exact Tensor.width_lt hrhs
    · rwa [Nat.one_mul]
  unfold noteShape
  rw [hlhs, hrhs]
  simp only [wp_bind, wp_state]
  refine wp_lift (fun found hfound => wp_update.mpr ?_) fun stop hstop => ?_
  · obtain ⟨hfits, hseen⟩ := larger_ok hshape hfound
    have hall : LargestFits { r with maxMatmul := some found } := fun _ hmem => by
      cases hmem
      exact hfits
    have hbefore : r.LargestFits := hseen
    unfold counts
    rw [if_pos hall, if_pos hbefore]
  · obtain ⟨hover, old, hmem, hold⟩ := larger_error hshape hstop
    refine ⟨hover, .inr (.inr (.inr (.inr ?_)))⟩
    change 0 < if r.LargestFits then 0 else 1
    rw [if_neg fun hall => hold (hall old hmem)]
    decide

theorem bump_counts {count : RecordingAccelerator → Nat} {put : Nat → RecordingAccelerator → RecordingAccelerator}
    {k : Nat × Nat × Nat × Nat × Nat} {r : RecordingAccelerator} (h : (put (count r + 1) r).counts = r.counts + k)
    (hover : wordSize ≤ count r + 1 → Over (r.counts + k)) :
    wp (bump count put) (fun _ r' => r'.counts = r.counts + k) (fun stop _ => overflow.short (r.counts + k) stop) r := by
  unfold bump
  simp only [wp_bind, wp_state]
  refine wp_lift (fun n hn => ?_) fun stop hstop => ?_
  · obtain ⟨-, rfl⟩ := word_eq_ok.mp hn
    exact wp_update.mpr h
  · obtain ⟨hstop, hlarge⟩ := word_error hstop
    exact ⟨hstop, hover hlarge⟩

omit [F32 F] in
theorem noteMatmul_counts {lhs rhs : Tensor F} {k n : Nat} (hlhs : lhs.shape.dims = [1, k])
    (hrhs : rhs.shape.dims = [k, n]) (hcells : n * k < wordSize) (r : RecordingAccelerator) :
    wp (noteMatmul lhs rhs) (fun _ r' => r'.counts = r.counts + (1, 0, 0, 0, 0))
      (fun stop _ => overflow.short (r.counts + (1, 0, 0, 0, 0)) stop) r := by
  have hbump : wp (bump matmulCount fun n r => { r with matmulCount := n })
      (fun _ r' => r'.counts = r.counts + (1, 0, 0, 0, 0))
      (fun stop _ => overflow.short (r.counts + (1, 0, 0, 0, 0)) stop) r := bump_counts rfl .inl
  refine wp_bind.mpr (wp_mono hbump (fun _ r' hr' => ?_) fun _ _ stop => stop)
  rw [← hr']
  exact noteShape_counts hlhs hrhs hcells r'

theorem noteSoftmax_counts (r : RecordingAccelerator) :
    wp noteSoftmax (fun _ r' => r'.counts = r.counts + (0, 1, 0, 0, 0))
      (fun stop _ => overflow.short (r.counts + (0, 1, 0, 0, 0)) stop) r :=
  bump_counts rfl fun h => .inr (.inl h)

/-! ### Architectures that are recorded -/

/-- Everything is dispatched. -/
theorem llama_follows :
    (Architecture.llama (accelerator (F := F))).Follows CpuArchitecture.llama overflow counts
      ⟨(1, 0, 0, 0, 0), (0, 1, 0, 0, 0), (0, 0, 1, 0, 0), (0, 0, 0, 1, 0)⟩ where
  scale := rfl
  act_shape _ _ := Tensor.mapF32_shape
  matmul _ _ _ _ hx hy hcells := .noted (noteMatmul_counts hx hy hcells)
  softmaxLastDim _ := .noted noteSoftmax_counts
  norm _ _ := .noted fun _ => bump_counts rfl fun h => .inr (.inr (.inl h))
  act _ := .noted fun _ => bump_counts rfl fun h => .inr (.inr (.inr (.inl h)))

omit [F32 F] in
/-- What is left of a run of `m'` when it is recorded. -/
theorem of_tracks {α : Type} {m : Exec (RunState F × RecordingAccelerator) Error α} {m' : DenseStep F α}
    {matmuls softmaxes norms activations : Nat}
    (h : Tracks overflow id counts m m' (matmuls, softmaxes, norms, activations, 0)) (s : RunState F)
    (r : RecordingAccelerator) :
    ((m.eval (s, r)).1 = .error (.panic .overflow) ∧ r.RunsOver matmuls softmaxes norms activations) ∨
      ((m.eval (s, r)).1 = (m'.eval s).1 ∧ (m.eval (s, r)).2.1 = (m'.eval s).2 ∧
        ∀ a, (m'.eval s).1 = .ok a →
          (m.eval (s, r)).2.2.counts = r.counts + (matmuls, softmaxes, norms, activations, 0)) := by
  have hrun := h s r
  generalize m.eval (s, r) = z at hrun ⊢
  generalize m'.eval s = z' at hrun ⊢
  cases hrun with
  | ok adds => exact .inr ⟨rfl, rfl, fun _ _ => adds⟩
  | error stop s' r' =>
    refine .inr ⟨?_, rfl, fun a h => nomatch h⟩
    cases stop <;> rfl
  | lost lack => exact .inl ⟨congrArg Except.error lack.1, runsOver_of_over lack.2⟩

/-- What `T` steps dispatch. -/
theorem llama_dispatch (T nHeads nLayers : Nat) :
    T • Dispatch.step ⟨((1, 0, 0, 0, 0) : Nat × Nat × Nat × Nat × Nat), (0, 1, 0, 0, 0), (0, 0, 1, 0, 0),
        (0, 0, 0, 1, 0)⟩ nHeads nLayers =
      (T * (7 * nLayers + 1), T * (nHeads * nLayers), T * (2 * nLayers + 1), T * nLayers, 0) := by
  unfold Dispatch.step Dispatch.layer
  simp [Nat.mul_comm nLayers]

/-- A run that is recorded is the run without the recorder, and every step of it dispatches seven products for each
layer and one for the logits, a softmax for each head of each layer, two norms for each layer and one at the end, and
an activation for each layer. It stops early only if a counter does not hold what the whole run would add, or if the
largest shape that the recorder brings along has a product that is no word. -/
theorem recorded_llama (cfg : Config) (weights : Weights F) (calls : List (UInt32 × Nat)) (s : RunState F)
    (r : RecordingAccelerator) :
    let run := (accelAll (DensePass.stepWithAccel accelerator cfg weights) calls).eval (s, r)
    let plain := (forwardAll (DensePass.step cfg weights) calls).eval s
    (run.1 = .error (.panic .overflow) ∧
        r.RunsOver (calls.length * (7 * cfg.nLayers + 1)) (calls.length * (cfg.nHeads * cfg.nLayers))
          (calls.length * (2 * cfg.nLayers + 1)) (calls.length * cfg.nLayers)) ∨
      (run.1 = plain.1 ∧ run.2.1 = plain.2 ∧
        ∀ ys, plain.1 = .ok ys →
          run.2.2.matmulCount = r.matmulCount + calls.length * (7 * cfg.nLayers + 1) ∧
          run.2.2.softmaxCount = r.softmaxCount + calls.length * (cfg.nHeads * cfg.nLayers) ∧
          run.2.2.rmsNormCount = r.rmsNormCount + calls.length * (2 * cfg.nLayers + 1) ∧
          run.2.2.siluCount = r.siluCount + calls.length * cfg.nLayers) := by
  have htracks := DensePass.tracks (llama_follows (F := F)) cfg weights calls
  rw [llama_dispatch] at htracks
  refine (of_tracks htracks s r).imp id fun ⟨hout, hcaches, hcounts⟩ => ⟨hout, hcaches, fun ys hys => ?_⟩
  have hadded := hcounts ys hys
  simp only [counts, Prod.mk_add_mk, Prod.mk.injEq] at hadded
  exact ⟨hadded.1, hadded.2.1, hadded.2.2.1, hadded.2.2.2.1⟩

section Gemma

variable {F : Type} [ErfF32 F]

/-- The norm and the activation of Gemma are not. -/
theorem gemma_follows :
    (Gemma.architecture (accelerator (F := F))).Follows Gemma.cpu overflow counts
      ⟨(1, 0, 0, 0, 0), (0, 1, 0, 0, 0), (0, 0, 0, 0, 0), (0, 0, 0, 0, 0)⟩ where
  scale := rfl
  act_shape _ _ := Tensor.mapF32_shape
  matmul _ _ _ _ hx hy hcells := .noted (noteMatmul_counts hx hy hcells)
  softmaxLastDim _ := .noted noteSoftmax_counts
  norm _ _ := .unnoted _
  act _ := .unnoted _

theorem gemma_dispatch (T nHeads nLayers : Nat) :
    T • Dispatch.step ⟨((1, 0, 0, 0, 0) : Nat × Nat × Nat × Nat × Nat), (0, 1, 0, 0, 0), (0, 0, 0, 0, 0),
        (0, 0, 0, 0, 0)⟩ nHeads nLayers =
      (T * (7 * nLayers + 1), T * (nHeads * nLayers), 0, 0, 0) := by
  unfold Dispatch.step Dispatch.layer
  simp [Nat.mul_comm nLayers]

/-- Of Gemma only the products and the softmaxes are dispatched. -/
theorem recorded_gemma (cfg : Config) (weights : Weights F) (calls : List (UInt32 × Nat)) (s : RunState F)
    (r : RecordingAccelerator) :
    let run := (accelAll (Gemma.stepWithAccel accelerator cfg weights) calls).eval (s, r)
    let plain := (forwardAll (Gemma.step cfg weights) calls).eval s
    (run.1 = .error (.panic .overflow) ∧
        r.RunsOver (calls.length * (7 * cfg.nLayers + 1)) (calls.length * (cfg.nHeads * cfg.nLayers)) 0 0) ∨
      (run.1 = plain.1 ∧ run.2.1 = plain.2 ∧
        ∀ ys, plain.1 = .ok ys →
          run.2.2.matmulCount = r.matmulCount + calls.length * (7 * cfg.nLayers + 1) ∧
          run.2.2.softmaxCount = r.softmaxCount + calls.length * (cfg.nHeads * cfg.nLayers) ∧
          run.2.2.rmsNormCount = r.rmsNormCount ∧ run.2.2.siluCount = r.siluCount) := by
  have htracks := Gemma.tracks (gemma_follows (F := F)) cfg weights calls
  rw [gemma_dispatch] at htracks
  refine (of_tracks htracks s r).imp id fun ⟨hout, hcaches, hcounts⟩ => ⟨hout, hcaches, fun ys hys => ?_⟩
  have hadded := hcounts ys hys
  simp only [counts, Prod.mk_add_mk, Prod.mk.injEq] at hadded
  exact ⟨hadded.1, hadded.2.1, hadded.2.2.1, hadded.2.2.2.1⟩

end Gemma

/-! ### Fresh recorders -/

theorem total_eq {r : RecordingAccelerator} {a b c d : Nat} (hmatmul : r.matmulCount = new.matmulCount + a)
    (hsoftmax : r.softmaxCount = new.softmaxCount + b) (hnorm : r.rmsNormCount = new.rmsNormCount + c)
    (hsilu : r.siluCount = new.siluCount + d) (hword : a + b + c + d < wordSize) :
    r.total = .ok (a + b + c + d) := by
  simp only [new, Nat.zero_add] at hmatmul hsoftmax hnorm hsilu
  unfold total
  rw [hmatmul, hsoftmax, hnorm, hsilu, word_of_lt (by omega), ok_bind, word_of_lt (by omega), ok_bind,
    word_of_lt hword]

theorem not_runsOver_new {a b c d : Nat} (ha : a < wordSize) (hb : b < wordSize) (hc : c < wordSize) (hd : d < wordSize) :
    ¬new.RunsOver a b c d := by
  unfold RunsOver new
  simp only [Nat.zero_add]
  rintro (h | h | h | h | h)
  · omega
  · omega
  · omega
  · omega
  · exact h fun _ hmem => nomatch hmem

/-- Two steps of a small model, counted from the start. -/
theorem recorded_llama_small :
    ∃ ys s' r', (accelAll (DensePass.stepWithAccel accelerator twoHeads smallTables) [(1, 0), (0, 1)]).eval
      (smallState (⟨3⟩ : Cost), new) = (.ok ys, (s', r')) ∧ r'.total = .ok (16 + 4 + 6 + 2) := by
  obtain ⟨ys, s', hplain, -⟩ := @DensePass.run_values Cost _ twoHeads smallTables smallDense _ CpuArchitecture.llamaValues
    rfl smallDense_isSized (smallState ⟨3⟩) ⟨rfl, rfl⟩ [1, 0] (show 2 ≤ 2 from Nat.le_refl 2) smallTokens
  have hstep : CpuArchitecture.llama.step twoHeads smallTables = DensePass.step twoHeads (smallTables : Weights Cost) :=
    funext₂ fun token pos => CpuArchitecture.llama_step twoHeads smallTables token pos
  have hcalls : ([1, 0] : List UInt32).zipIdx = [(1, 0), (0, 1)] := rfl
  rw [hstep, hcalls] at hplain
  have hrecorded := recorded_llama twoHeads smallTables [(1, 0), (0, 1)] (smallState (⟨3⟩ : Cost)) new
  rw [hplain] at hrecorded
  generalize (accelAll (DensePass.stepWithAccel accelerator twoHeads smallTables) [(1, 0), (0, 1)]).eval
    (smallState (⟨3⟩ : Cost), new) = run at hrecorded ⊢
  rcases hrecorded with h | h
  · exact absurd h.2 (not_runsOver_new (by decide) (by decide) (by decide) (by decide))
  · obtain ⟨hmatmul, hsoftmax, hnorm, hsilu⟩ := h.2.2 ys rfl
    exact ⟨ys, run.2.1, run.2.2, Prod.ext h.1 rfl, total_eq hmatmul hsoftmax hnorm hsilu (by decide)⟩

/-- Of Gemma it has seen the products and the softmaxes alone. -/
theorem recorded_gemma_small :
    ∃ ys s' r', (accelAll (Gemma.stepWithAccel accelerator twoHeads smallTables) [(1, 0), (0, 1)]).eval
      (smallState (⟨3⟩ : Cost), new) = (.ok ys, (s', r')) ∧ r'.total = .ok (16 + 4 + 0 + 0) := by
  obtain ⟨ys, s', hplain, -⟩ := @DensePass.run_values Cost _ twoHeads smallTables smallDense _ Gemma.values
    rfl smallDense_isSized (smallState ⟨3⟩) ⟨rfl, rfl⟩ [1, 0] (show 2 ≤ 2 from Nat.le_refl 2) smallTokens
  have hstep : Gemma.cpu.step twoHeads smallTables = Gemma.step twoHeads (smallTables : Weights Cost) :=
    funext₂ fun token pos => (Gemma.step_eq twoHeads smallTables token pos).symm
  have hcalls : ([1, 0] : List UInt32).zipIdx = [(1, 0), (0, 1)] := rfl
  rw [hstep, hcalls] at hplain
  have hrecorded := recorded_gemma twoHeads smallTables [(1, 0), (0, 1)] (smallState (⟨3⟩ : Cost)) new
  rw [hplain] at hrecorded
  generalize (accelAll (Gemma.stepWithAccel accelerator twoHeads smallTables) [(1, 0), (0, 1)]).eval
    (smallState (⟨3⟩ : Cost), new) = run at hrecorded ⊢
  rcases hrecorded with h | h
  · exact absurd h.2 (not_runsOver_new (by decide) (by decide) (by decide) (by decide))
  · obtain ⟨hmatmul, hsoftmax, hnorm, hsilu⟩ := h.2.2 ys rfl
    exact ⟨ys, run.2.1, run.2.2, Prod.ext h.1 rfl, total_eq hmatmul hsoftmax hnorm hsilu (by decide)⟩

end RecordingAccelerator

end VitniTensor
