import VitniTensor.Model.Dispatch
import VitniTensor.Quant.Parallel

/-!
# Build independence

`std-parallel` changes how the rows of a k-quant linear are scheduled, and nothing else.
-/

namespace VitniTensor

open Outcome

variable {F : Type} [F32 F]

/-- Either build dispatches a Q4_K linear to the same rows. -/
private theorem dispatchQ4K_build (build : Build) {inFeat outFeat : Nat} {w : List UInt8}
    (h : HoldsRows 144 inFeat outFeat w) (x y : List F) :
    dispatchQ4K build x w inFeat outFeat y = dispatchQ4K .serial x w inFeat outFeat y := by
  cases build with
  | serial => rfl
  | stdParallel threads sched few =>
    unfold dispatchQ4K
    dsimp only
    split
    next hmany => exact linearQ4KFusedParallel_eq sched x w y 1 inFeat outFeat threads h few
    next hfew => rfl

private theorem dispatchQ6K_build (build : Build) {inFeat outFeat : Nat} {w : List UInt8}
    (h : HoldsRows 210 inFeat outFeat w) (x y : List F) :
    dispatchQ6K build x w inFeat outFeat y = dispatchQ6K .serial x w inFeat outFeat y := by
  cases build with
  | serial => rfl
  | stdParallel threads sched few =>
    unfold dispatchQ6K
    dsimp only
    split
    next hmany => exact linearQ6KIntegerParallel_eq sched x w y 1 inFeat outFeat threads h few
    next hfew => rfl

/-- What the k-quant arms of `linear_dispatch` ask of a weight matrix. -/
structure QuantTensor.HoldsRows (t : QuantTensor) (inFeat outFeat : Nat) : Prop where
  q4k : t.dtype = .q4_k → VitniTensor.HoldsRows 144 inFeat outFeat t.bytes
  q6k : t.dtype = .q6_k → VitniTensor.HoldsRows 210 inFeat outFeat t.bytes

theorem linearDispatch_build (build : Build) {inFeat outFeat : Nat} {t : QuantTensor}
    (h : t.HoldsRows inFeat outFeat) (x : List F) (regime : UInt8) :
    linearDispatch build x t inFeat outFeat regime =
      linearDispatch .serial x t inFeat outFeat regime := by
  unfold linearDispatch linearArms
  cases hdtype : t.dtype with
  | q4_k => simp only [dispatchQ4K_build build (h.q4k hdtype)]
  | q6_k => simp only [dispatchQ6K_build build (h.q6k hdtype)]
  | _ => rfl

/-- **Build independence.** On weights that hold their rows, whatever the schedule and the
number of threads: the parallel linears are their serial twins, on every row kernel call the
fallback of the fused ones is not taken, the Q4_K integer linear is `integer_dot_q4k` row by
row, the chunk tasks of a batch are all its rows, each of them once, and so
`linear_dispatch` does not depend on the build. -/
theorem std_parallel_invisible (sched : Schedule) (threads : Nat) (hthreads : threads ≤ 2 ^ 32) :
    (∀ (x y : List F) (w : List UInt8) (batch inFeat outFeat : Nat), HoldsRows 144 inFeat outFeat w →
      linearQ4KFusedParallel sched x w y batch inFeat outFeat threads =
        linearQ4KFused x w y batch inFeat outFeat ∧
      linearQ4KIntegerParallel sched x w y batch inFeat outFeat threads =
        linearQ4KInteger x w y batch inFeat outFeat ∧
      linearQ4KInteger x w y batch inFeat outFeat =
        linearRows (inFeat / 256 * 144) pure (fun xRow wRow => integerDotQ4k xRow wRow inFeat)
          x w y batch inFeat outFeat) ∧
    (∀ (x y : List F) (w : List UInt8) (batch inFeat outFeat : Nat), HoldsRows 210 inFeat outFeat w →
      linearQ6KFusedParallel sched x w y batch inFeat outFeat threads =
        linearQ6KFused x w y batch inFeat outFeat ∧
      linearQ6KIntegerParallel sched x w y batch inFeat outFeat threads =
        linearQ6KInteger x w y batch inFeat outFeat) ∧
    (∀ (xRow : List F) (wRow : List UInt8) (nSuper : Nat), xRow.length = nSuper * 256 →
      (wRow.length = nSuper * 144 → ∃ v, canonicalDotQ4kFused xRow wRow (nSuper * 256) = .ok v) ∧
      (wRow.length = nSuper * 210 → ∃ v, q6kFusedF32Dot xRow wRow (nSuper * 256) = .ok v)) ∧
    (∀ outFeat b, ((sched.order (chunkCount outFeat (grainOf outFeat (threads * 4))) b).flatMap
      (taskRows outFeat (grainOf outFeat (threads * 4)))).Perm (List.range outFeat)) ∧
    ∀ (x : List F) (t : QuantTensor) (inFeat outFeat : Nat) (regime : UInt8),
      t.HoldsRows inFeat outFeat →
      linearDispatch (.stdParallel threads sched hthreads) x t inFeat outFeat regime =
        linearDispatch .serial x t inFeat outFeat regime := by
  refine ⟨fun x y w batch inFeat outFeat h => ⟨?_, ?_, ?_⟩, fun x y w batch inFeat outFeat h => ⟨?_, ?_⟩,
    fun xRow wRow nSuper hx => ⟨canonicalDotQ4kFused_row hx, q6kFusedF32Dot_row hx⟩,
    fun outFeat b => taskRows_perm sched (grainOf_pos outFeat _) b,
    fun x t inFeat outFeat regime h => linearDispatch_build _ h x regime⟩
  · exact linearQ4KFusedParallel_eq sched x w y batch inFeat outFeat threads h hthreads
  · exact linearQ4KIntegerParallel_eq sched x w y batch inFeat outFeat threads h hthreads
  · exact linearQ4KInteger_rows x w y batch inFeat outFeat h
  · exact linearQ6KFusedParallel_eq sched x w y batch inFeat outFeat threads h hthreads
  · exact linearQ6KIntegerParallel_eq sched x w y batch inFeat outFeat threads h hthreads

/-- The tasks of every batch in reverse. -/
def Schedule.reversed : Schedule where
  order n _ := (List.range n).reverse
  perm _ _ := List.reverse_perm _

theorem std_parallel_invisible_reversed :
    linearQ4KFusedParallel Schedule.reversed (List.replicate 256 (F32.one : Float32))
        (List.replicate 1000 0) (List.replicate 6 F32.zero) 1 256 6 3 =
      linearQ4KFused (List.replicate 256 F32.one) (List.replicate 1000 0)
        (List.replicate 6 F32.zero) 1 256 6 := by
  have h : HoldsRows 144 256 6 (List.replicate 1000 0) :=
    ⟨rfl, by rw [List.length_replicate]; decide, by rw [List.length_replicate]; decide⟩
  exact ((std_parallel_invisible Schedule.reversed 3 (by decide)).1 _ _ _ 1 256 6 h).1

end VitniTensor
