import VitniTensor.Model.NetDense

/-!
# Gemma

The second architecture of the F32 pass: a scaled embedding, a norm that scales by one more than its weights,
and GELU for SiLU. Its norm is written out in the pass, and adds up its squares in order.
-/

namespace VitniTensor

open Outcome Exec Rows

variable {F A E : Type} [ErfF32 F]

namespace Gemma

/-- `1e-6` -/
def epsilon : F := F32.ofBits 0x358637BD

/-- One row, normalized and scaled by `1.0 + w`. -/
def rmsRow (ws : List F) (eps : F) (feat : Nat) (row : List F) : Res (List F) := do
  let sumsq := row.foldl (fun sumsq v => F32.add sumsq (F32.mul v v)) F32.zero
  let scale := F32.div F32.one (F32.sqrtf (F32.add (F32.div sumsq (F32.ofInt feat)) eps))
  collectRange row.length fun i => do
    let v ← index row i
    let w ← index ws i
    pure (F32.mul (F32.mul v scale) (F32.add F32.one w))

/-- `gemma_rms_norm` -/
def rmsNorm (x weight : Tensor F) (eps : F) : Res (Tensor F) := do
  let xs ← DensePass.tensorAsF32 x
  let ws ← DensePass.tensorAsF32 weight
  match x.shape.dims.getLast? with
  | none => panic .explicit
  | some feat => do
    let rows ← div xs.length feat
    let out ← zeroVec xs.length
    let out ← forRange rows (fun r out => do
      let row ← slice xs (r * feat) ((r + 1) * feat)
      let outRow ← rmsRow ws eps feat row
      copyInto out (r * feat) ((r + 1) * feat) outRow) out
    Tensor.fromF32 out x.shape

/-- An embedding is multiplied by `sqrt(dim)`. -/
def scale (dim : Nat) (v : F) : F :=
  F32.mul v (F32.sqrtf (F32.ofInt dim))

/-- The norm and the activation are not dispatched. -/
def architecture (accel : Accelerator F A E) : Architecture F A E where
  toAccelerator := accel
  scale := scale
  norm x w := mapErr accel.fromError (lift (rmsNorm x w epsilon))
  act t := mapErr accel.fromError (lift t.gelu)

/-- `gemma::step_with_accel` -/
def stepWithAccel (accel : Accelerator F A E) (cfg : Config) (weights : Weights F) (token : UInt32) (pos : Nat) :
    AccelStep F A E (Tensor F) :=
  (architecture accel).step cfg weights token pos

/-- `gemma::step` -/
def step (cfg : Config) (weights : Weights F) (token : UInt32) (pos : Nat) : DenseStep F (Tensor F) :=
  alone (stepWithAccel cpuAccelerator cfg weights token pos)

/-- The same without an accelerator. -/
def cpu : CpuArchitecture F where
  scale := scale
  norm x w := rmsNorm x w epsilon
  act := Tensor.gelu

/-- One row, as a value. -/
def rmsValue (ws xs : List F) : List F :=
  let sumsq := xs.foldl (fun sumsq v => F32.add sumsq (F32.mul v v)) F32.zero
  let scale := F32.div F32.one (F32.sqrtf (F32.add (F32.div sumsq (F32.ofInt xs.length)) epsilon))
  List.zipWith (fun v w => F32.mul (F32.mul v scale) (F32.add F32.one w)) xs ws

theorem length_rmsValue {ws xs : List F} (h : ws.length = xs.length) : (rmsValue ws xs).length = xs.length := by
  unfold rmsValue
  rw [List.length_zipWith, h, Nat.min_self]

theorem rmsRow_value {ws xs : List F} (h : ws.length = xs.length) :
    rmsRow ws epsilon xs.length xs = .ok (rmsValue ws xs) :=
  collectRange_zipWith rfl h _

theorem rmsNorm_value {n : Nat} {x w : Tensor F} {xs ws : List F} (hn : 0 < n) (hmemory : n * 4 < 2 ^ 63)
    (hx : x.Is [n] xs) (hw : w.Is [n] ws) (hxs : xs.length = n) (hws : ws.length = n) :
    ∃ z, rmsNorm x w epsilon = .ok z ∧ z.Is [n] (rmsValue ws xs) := by
  have hlength := length_rmsValue (hws.trans hxs.symm)
  have hrow : rmsRow ws epsilon n xs = .ok (rmsValue ws xs) := hxs ▸ rmsRow_value (hws.trans hxs.symm)
  have hrows := @forRange_one_row Error F (rmsRow ws epsilon n) n xs (List.replicate n F32.zero) (rmsValue ws xs) hxs
    (by rw [List.length_replicate, hxs]) hrow (hlength.trans hxs)
  have hone : (div n n : Res Nat) = .ok 1 := by rw [div_of_pos hn, Nat.div_self hn]
  have hzeros : (zeroVec n : Res (List F)) = .ok (List.replicate n F32.zero) := if_pos hmemory
  obtain ⟨z, hz, his⟩ := hx.fromF32_ok hlength
  refine ⟨z, ?_, his⟩
  unfold rmsNorm
  rw [DensePass.tensorAsF32_ok hx, ok_bind, DensePass.tensorAsF32_ok hw, ok_bind, hx.dims]
  dsimp only [List.getLast?]
  rw [hxs, List.getLast_singleton, hone, ok_bind, hzeros, ok_bind, hrows, ok_bind, hz]

/-- What Gemma computes in its own way, on lists. -/
def values : (cpu : CpuArchitecture F).Values where
  norm := rmsValue
  act := Tensor.geluOf
  length_norm := length_rmsValue
  norm_ok := rmsNorm_value
  act_ok h := h.mapF32_ok "gelu" Tensor.geluOf

theorem agrees {accel : Accelerator F A E} (h : accel.Conforms) : (architecture accel).Agrees cpu where
  scale := rfl
  act_shape _ _ := Tensor.mapF32_shape
  matmul x y _ _ _ _ _ := (h.matmul x y).mirroring
  softmaxLastDim t := (h.softmaxLastDim t).mirroring
  norm _ _ := .unnoted _
  act _ := .unnoted _

theorem step_eq (cfg : Config) (weights : Weights F) (token : UInt32) (pos : Nat) :
    step cfg weights token pos = cpu.step cfg weights token pos :=
  ((agrees cpuAccelerator_conforms).step cfg weights token pos).mirrors.alone

/-- Runs of `gemma::step_with_accel` and of `gemma::step`. -/
theorem tracks {M : Type} [AddCommMonoid M] {accel : Accelerator F A E} {Lost : Loss M E} {measure : A → M}
    {each : Dispatch M} (h : (architecture accel).Follows cpu Lost measure each) (cfg : Config) (weights : Weights F)
    (calls : List (UInt32 × Nat)) :
    Tracks Lost accel.fromError measure (accelAll (stepWithAccel accel cfg weights) calls)
      (forwardAll (step cfg weights) calls) (calls.length • each.step cfg.nHeads cfg.nLayers) := by
  have hstep : cpu.step cfg weights = step cfg weights :=
    funext₂ fun token pos => (step_eq cfg weights token pos).symm
  rw [← hstep]
  exact h.run cfg weights calls

/-- An accelerator that returns what the CPU returns changes nothing about a run of Gemma either. -/
theorem accelerated {accel : Accelerator F A E} (h : accel.Conforms) (cfg : Config) (weights : Weights F)
    (calls : List (UInt32 × Nat)) :
    Mirrors accel.fromError (accelAll (stepWithAccel accel cfg weights) calls) (forwardAll (step cfg weights) calls) :=
  Tracks.mirrors (tracks (agrees h) cfg weights calls)

theorem accelerated_cpu :
    Mirrors id (accelAll (stepWithAccel cpuAccelerator twoHeads smallTables) [(1, 0), (0, 1)])
      (forwardAll (step twoHeads (smallTables : Weights Cost)) [(1, 0), (0, 1)]) :=
  accelerated cpuAccelerator_conforms twoHeads smallTables [(1, 0), (0, 1)]

end Gemma

end VitniTensor
