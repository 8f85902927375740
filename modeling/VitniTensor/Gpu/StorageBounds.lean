import VitniTensor.Gpu.EmbedRows
import VitniTensor.Gpu.MetalAccepted
import VitniTensor.Gpu.MetalBounds
import VitniTensor.Gpu.CudaSizes
import VitniTensor.Inference.Driver

/-!
# Requests and the storage of the kernels

The drivers compare the length of a request with the context length of the model. The backends
have limits of their own, which nothing compares it with.
-/

namespace VitniTensor

open Outcome Exec

variable {F φ : Type}

/-- The number of positions of a request. -/
def Request.total (req : Request) : Nat :=
  req.promptTokens.length + req.nNewTokens

/-- The drivers go on with the request. -/
def Request.Accepted (req : Request) (cfg : Config) : Prop :=
  0 < req.promptTokens.length ∧ req.total ≤ cfg.seqLen

section Backends

variable [F32 F] {cfg : Config} {w : QuantizedWeights F}

/-- **Storage of the kernels.** For a request that the drivers accept, and whatever tokens its run feeds, the
subscripts of the Metal kernels stay inside exactly if the host gets through no step or the sizes of those that it
gets through fit, and those of the CUDA kernels exactly if the sizes of every step that begins fit. -/
theorem storage_bounded {req : Request} (haccepted : req.Accepted cfg) {fed : List UInt32}
    (hfed : fed.length ≤ req.total) (metalRegime : UInt8) (maxSeqVar : Option Nat) (device : Cuda.VtCuda F → Bool)
    (cudaRegime : Int) :
    (∀ mf, MetalForward.new cfg w = .ok mf →
      ((mf.setRegime metalRegime).StaysInside fed ↔
        (0 < mf.looked fed → mf.headSize / 2 * 4 < 2 ^ 63 → (mf.setRegime metalRegime).Encodes →
          (mf.setRegime metalRegime).Fits (mf.looked fed)))) ∧
    (∀ cf, Cuda.newRegime maxSeqVar device cfg w cudaRegime = .ok cf →
      (cf.StaysInside fed ↔ ∀ pos, cf.Begins fed pos → cf.h.StepFits (UInt32.ofNat pos))) := by
  constructor
  · intro mf hnew
    refine MetalForward.staysInside_iff fun hsome pos hpos => ?_
    exact MetalForward.new_offset hnew hsome (Nat.lt_of_lt_of_le hpos (Nat.le_trans hfed haccepted.2))
  · intro cf hnew
    obtain ⟨hcos, hsin⟩ := Cuda.newRegime_tables hnew
    exact CudaForward.staysInside_iff hcos hsin fed

end Backends

/-! ### A context longer than the scores -/

/-- The one-head model with a context of `seqLen` positions. -/
def oneHeadContext (seqLen : Nat) : Config :=
  ⟨32, 32, 1, 1, 1, 1, seqLen, true⟩

/-- A request for `nNewTokens` tokens after the token 0. -/
def oneTokenRequest (nNewTokens : Nat) : Request where
  modelId := ""
  promptTokens := [0]
  nNewTokens := nNewTokens

private theorem oneHead_sizes (seqLen : Nat) : (oneHeadContext seqLen).headSize = .ok 32 ∧
    (oneHeadContext seqLen).kvDim = .ok 32 ∧ (oneHeadContext seqLen).kvMul = .ok 1 := by
  refine ⟨?_, ?_, ?_⟩
  · exact (rfl : oneHead.headSize = .ok 32)
  · exact (rfl : oneHead.kvDim = .ok 32)
  · exact (rfl : oneHead.kvMul = .ok 1)

/-- The only row of the table. -/
private theorem oneHead_row : ∃ row, (dequantizeQ8_0 (List.replicate 34 0) : Res (List Cost)) = .ok row := by
  obtain ⟨row, hrow, -⟩ := (@GgufTensorType.dequantizer_whole Cost _ .q8_0 32 34 32 (List.replicate 34 0)
    dequantizeQ8_0 rfl rfl (by decide) (by decide)).1 (by decide)
  exact ⟨row, hrow⟩

private theorem zeros_looked {found : UInt32 → Bool} (hfound : found 0 = true) (total : Nat) :
    ((List.replicate total 0).takeWhile found).length = total := by
  rw [List.takeWhile_replicate, if_pos hfound, List.length_replicate]

private theorem oneHead_cuda_looked (seqLen : Nat) (h : Cuda.VtCuda Cost) (total : Nat) :
    (Cuda.forwardOf (oneHeadContext seqLen) (oneHeadWeights none) h 32).looked (List.replicate total 0) = total := by
  refine zeros_looked ?_ total
  obtain ⟨row, hrow⟩ := oneHead_row
  change (CudaForward.embedBlocks (32 / 32 * 34) dequantizeQ8_0 (zeroRows 1).bytes 0 :
    Outcome CudaError (List Cost)).isOk = true
  have hslice : (slice (zeroRows 1).bytes (0 * (32 / 32 * 34)) ((0 + 1) * (32 / 32 * 34)) :
      Outcome CudaError (List UInt8)) = .ok (List.replicate 34 0) := rfl
  rw [CudaForward.embedBlocks, hslice, ok_bind, hrow]
  rfl

private theorem oneHead_metal {seqLen : Nat} {mf : MetalForward Cost}
    (hnew : MetalForward.new (oneHeadContext seqLen) (oneHeadWeights none) = .ok mf) :
    (mf.setRegime 2).Encodes ∧ (∀ total, (mf.setRegime 2).Fits total ↔ total ≤ 512) ∧
      mf.headSize / 2 * 4 < 2 ^ 63 ∧ ∀ total, mf.looked (List.replicate total 0) = total := by
  obtain ⟨hheadSize, hkvDim, hkvMul⟩ := oneHead_sizes seqLen
  obtain ⟨kvDim, hkvDim', hnew⟩ := bind_eq_ok.mp hnew
  cases hkvDim.symm.trans hkvDim'
  obtain ⟨headSize, hheadSize', hnew⟩ := bind_eq_ok.mp hnew
  cases hheadSize.symm.trans hheadSize'
  obtain ⟨qOut, hqOut, hnew⟩ := bind_eq_ok.mp hnew
  obtain ⟨kvMul, hkvMul', hnew⟩ := bind_eq_ok.mp hnew
  cases hkvMul.symm.trans hkvMul'
  obtain ⟨keys, -, hnew⟩ := bind_eq_ok.mp hnew
  obtain ⟨values, -, hnew⟩ := bind_eq_ok.mp hnew
  obtain ⟨-, -, hnew⟩ := bind_eq_ok.mp hnew
  obtain ⟨-, rfl⟩ := word_eq_ok.mp hqOut
  cases hnew
  have hmatrix : ∀ rows, (Metal.mkw (zeroRows rows) rows 32).Fits 2 :=
    fun _ _ => (by decide : 32 % 2 ^ 32 ≤ 524288)
  refine ⟨⟨Nat.le_refl 1, fun _ => (by decide : 0 < 32), fun l hl => ?_⟩, fun total => ?_,
    (by decide : 32 / 2 * 4 < 2 ^ 63), fun total => ?_⟩
  · rw [List.mem_singleton.mp hl]
    exact fun hbias => nomatch hbias
  · constructor
    · intro hfits
      exact hfits.scores (Nat.zero_lt_one) (by decide : 0 < 1 % 2 ^ 32)
    · intro hshort
      refine ⟨fun _ _ => hshort, fun l hl wt hwt => ?_, hmatrix 1⟩
      rw [List.mem_singleton.mp hl] at hwt
      have hrows : wt = Metal.mkw (zeroRows 32) 32 32 := by
        simp only [Metal.Layer.linears, List.mem_cons, List.not_mem_nil, or_false] at hwt
        rcases hwt with h | h | h | h | h | h | h <;> exact h
      rw [hrows]
      exact hmatrix 32
  · refine zeros_looked ?_ total
    obtain ⟨row, hrow⟩ := oneHead_row
    change (MetalForward.embedBlocks (32 / 32 * 34) dequantizeQ8_0 (zeroRows 1).bytes 0 : Res (List Cost)).isOk = true
    have hslice : (slice (zeroRows 1).bytes (0 * (32 / 32 * 34)) ((0 + 1) * (32 / 32 * 34)) : Res (List UInt8)) =
        .ok (List.replicate 34 0) := rfl
    rw [MetalForward.embedBlocks, hslice, ok_bind, hrow]
    rfl

private theorem oneHead_cuda (seqLen : Nat) :
    ∃ cf, Cuda.newRegime none (fun _ => true) (oneHeadContext seqLen) (oneHeadWeights none) 2 = .ok cf ∧
      (∀ total, 0 < total → total ≤ seqLen → (cf.h.Fits total ↔ total ≤ 4096)) ∧
      ∀ total, 0 < total → (cf.StaysInside (List.replicate total 0) ↔ cf.h.Fits total) := by
  obtain ⟨hheadSize, hkvDim, hkvMul⟩ := oneHead_sizes seqLen
  have hnew := @Cuda.newRegime_ok Cost _ none (fun _ => true) (oneHeadContext seqLen) (oneHeadWeights none) 2 32 32 1
    _ _ (fun _ => rfl) hheadSize hkvDim hkvMul (by decide : 32 < wordSize) (by decide) (by decide : 1 < 2 ^ 31) rfl rfl
    rfl
  have hdefined := Cuda.newRegime_defined hnew (by decide : 32 < 2 ^ 31)
    (fun kvDim hkv => by cases hkvDim.symm.trans hkv; decide) (by decide : 1 < 2 ^ 31) (by decide : 1 < 2 ^ 31) rfl
    (fun _ headSize hsize => by cases hheadSize.symm.trans hsize; decide)
  obtain ⟨hcos, hsin⟩ := Cuda.newRegime_tables hnew
  have h32 : Cuda.cInt 32 = 32 := Cuda.cInt_of_lt (by decide)
  have h1 : Cuda.cInt 1 = 1 := Cuda.cInt_of_lt (by decide)
  have hmatrix : ∀ (w : Cuda.Matrix) (m : Int), w.kind = 2 → w.Fits 2 m (Cuda.cInt 32) := by
    intro w m hkind _
    rw [if_pos (.inl hkind), h32]
    decide
  refine ⟨_, hnew, fun total hsome hlength => ⟨fun hfits => hfits.scores (List.cons_ne_nil _ _), fun hshort => ?_⟩,
    fun total hsome => ?_⟩
  · refine ⟨fun _ => hshort, fun _ => ?_, fun l hl => ?_, fun l hl => ?_, ?_⟩
    · have hcells : min seqLen 4096 * 32 =
          Cuda.devZeros (Cuda.sizeT (Cuda.cInt (min seqLen 4096)) * Cuda.sizeT (Cuda.cInt 32) % 2 ^ 64) := by
        rw [Cuda.sizeT_cInt (by omega), Cuda.sizeT_cInt (by decide), Nat.mod_eq_of_lt (by omega),
          Cuda.devZeros_of_pos (by omega) (by omega)]
      have hrow : (total - 1) * 32 + 32 ≤ min seqLen 4096 * 32 := by omega
      constructor <;> dsimp only [Cuda.forwardOf, Cuda.vtCudaNew, Cuda.vtCfg, oneHeadContext, Option.getD]
      · intro _
        rw [← hcells, h32]
        exact hrow
      · rw [h1]
        decide
      · rw [← hcells, h32, h1]
        exact .inr hrow
    · rw [List.mem_singleton.mp hl]
      constructor <;> dsimp only [Cuda.forwardOf, Cuda.vtCudaNew, Cuda.vtCfg] <;> exact hmatrix _ _ rfl
    · rw [List.mem_singleton.mp hl]
      constructor <;> dsimp only [Cuda.forwardOf, Cuda.vtCudaNew, Cuda.vtCfg] <;> exact hmatrix _ _ rfl
    · dsimp only [Cuda.forwardOf, Cuda.vtCudaNew, Cuda.vtCfg]
      exact hmatrix _ _ rfl
  · have hiff := CudaForward.staysInside_defined hdefined hcos hsin (by decide : 1 * 4 < 2 ^ 63)
      (List.replicate total 0)
    rw [oneHead_cuda_looked] at hiff
    exact hiff.trans (imp_iff_right hsome)

/-- A request for one token after a prompt of one, of which every pick is the token 0. -/
theorem storage_bounded_short :
    (oneTokenRequest 1).Accepted (oneHeadContext 2) ∧
      (∃ mf, MetalForward.new (oneHeadContext 2) (oneHeadWeights none) = .ok mf ∧
        (mf.setRegime 2).StaysInside [0, 0]) ∧
      ∃ cf, Cuda.newRegime none (fun _ => true) (oneHeadContext 2) (oneHeadWeights none) 2 = .ok cf ∧
        (∀ pos, cf.Begins [0, 0] pos → cf.h.StepFits (UInt32.ofNat pos)) ∧ cf.StaysInside [0, 0] := by
  have haccepted : (oneTokenRequest 1).Accepted (oneHeadContext 2) := ⟨by decide, by decide⟩
  obtain ⟨hmetal, hcuda⟩ := @storage_bounded Cost _ (oneHeadContext 2) (oneHeadWeights none) (oneTokenRequest 1)
    haccepted [0, 0] (by decide) 2 none (fun _ => true) 2
  obtain ⟨cf, hnew, hfits, hinside⟩ := oneHead_cuda 2
  have hmf : ∃ mf, MetalForward.new (oneHeadContext 2) (oneHeadWeights none) = .ok mf := ⟨_, rfl⟩
  obtain ⟨mf, hmf⟩ := hmf
  have hstays := (hinside 2 (by decide)).mpr ((hfits 2 (by decide) (by decide)).mpr (by decide))
  refine ⟨haccepted, ⟨mf, hmf, (hmetal mf hmf).mpr fun _ _ _ => ?_⟩, cf, hnew, (hcuda cf hnew).mp hstays, hstays⟩
  obtain ⟨-, hshort, -, hlooked⟩ := oneHead_metal hmf
  exact (hshort _).mpr ((hlooked 2).trans_le (by decide))

/-- A request for 4096 tokens after a prompt of one is accepted where the context has as many positions,
and both backends leave the scores that they have room for. -/
theorem long_context_leaves_storage :
    (oneTokenRequest 4096).Accepted (oneHeadContext 4097) ∧
      (∃ mf, MetalForward.new (oneHeadContext 4097) (oneHeadWeights none) = .ok mf ∧
        ¬(mf.setRegime 2).StaysInside (List.replicate 4097 0)) ∧
      ∃ cf, Cuda.newRegime none (fun _ => true) (oneHeadContext 4097) (oneHeadWeights none) 2 = .ok cf ∧
        ¬cf.StaysInside (List.replicate 4097 0) := by
  have hmf : ∃ mf, MetalForward.new (oneHeadContext 4097) (oneHeadWeights none) = .ok mf := ⟨_, rfl⟩
  obtain ⟨mf, hmf⟩ := hmf
  obtain ⟨cf, hnew, hfits, hinside⟩ := oneHead_cuda 4097
  obtain ⟨hencodes, hshort, hmemory, hlooked⟩ := oneHead_metal hmf
  refine ⟨⟨by decide, by decide⟩, ⟨mf, hmf, fun hstays => ?_⟩, cf, hnew, fun hstays => ?_⟩
  · have hoffset : 0 < (mf.setRegime 2).nLayers → ∀ pos < (List.replicate 4097 (0 : UInt32)).length,
        pos * (mf.setRegime 2).kvDim * 4 < wordSize := by
      intro hsome pos hpos
      rw [List.length_replicate] at hpos
      exact MetalForward.new_offset hmf hsome hpos
    have hlooked : (mf.setRegime 2).looked (List.replicate 4097 0) = 4097 := hlooked 4097
    have hfits := (MetalForward.staysInside_iff hoffset).mp hstays (by rw [hlooked]; decide) hmemory hencodes
    rw [hlooked] at hfits
    exact absurd ((hshort 4097).mp hfits) (by decide)
  · exact absurd ((hfits 4097 (by decide) (by decide)).mp ((hinside 4097 (by decide)).mp hstays)) (by decide)

end VitniTensor
