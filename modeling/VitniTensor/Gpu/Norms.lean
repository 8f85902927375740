import VitniTensor.Gpu.CudaKernels
import VitniTensor.Gpu.CudaSizes
import VitniTensor.Gpu.MetalBounds
import VitniTensor.Quant.Leaves

/-!
# The sum of squares of a norm

Both norm kernels reduce a row as one chunk, whatever its width, while the engine cuts it into chunks
of 8192. The hosts pass the width of every model that they accept.
-/

namespace VitniTensor

open Outcome Device

/-! ### The kernels -/

/-- The sum of squares of `rms_kernel`. -/
def Metal.rmsSumsq {F : Type} [F32 F] (row : Nat → F) (feat : UInt32) : F :=
  ftree8 (laneSums feat.toNat fun i => F32.mul (row i) (row i))

section Chunk

variable {F : Type}

theorem Metal.rmsSumsq_eq [F32 F] (row : List F) (feat : UInt32) :
    rmsSumsq (row.getD · F32.zero) feat = rangeValue (productOf row row) 0 feat.toNat :=
  (tree_laneSums _ _).2

theorem Cuda.Device.rmsSumsq_eq [F32 F] (row : List F) (feat : UInt32) :
    rmsSumsq (row.getD · F32.zero) feat = rangeValue (productOf row row) 0 feat.toNat :=
  (tree_laneSums _ _).1

/-- A reduction of one chunk. -/
theorem canonicalValue_chunk [F32 F] (v : Nat → F) {n : Nat} (hsome : 0 < n) (hone : n ≤ canonChunk) :
    canonicalValue v n = rangeValue v 0 n := by
  have hcount : (n + canonChunk - 1) / canonChunk = 1 := by unfold canonChunk at *; omega
  unfold canonicalValue
  rw [hcount, List.range_one, List.map_singleton, PairTree.tree_singleton,
    chunkSum_eq v (by rw [Nat.zero_mul]; exact Nat.zero_le n), Nat.zero_mul, Nat.zero_add, Nat.min_eq_right hone]

end Chunk

/-! ### The widths that agree -/

/-- A row of zeros. -/
def zeroRow (n : Nat) : List Cost :=
  List.replicate n ⟨0⟩

theorem productOf_zeroRow (n i : Nat) : productOf (zeroRow n) (zeroRow n) i = ⟨0⟩ := by
  have hcell : (zeroRow n).getD i F32.zero = ⟨0⟩ := by
    unfold zeroRow
    rw [List.getD_eq_getElem?_getD, List.getElem?_replicate]
    split <;> rfl
  unfold productOf
  rw [hcell]
  rfl

/-- One chunk of the first `width % 2^32` terms is the reduction of a row exactly when the row is one
chunk. -/
theorem oneChunk_zeroRow {width : Nat}
    (h : canonicalDot (zeroRow width) (zeroRow width) width =
      .ok (rangeValue (productOf (zeroRow width) (zeroRow width)) 0 (width % 2 ^ 32))) :
    0 < width ∧ width ≤ canonChunk := by
  have hlength : (zeroRow width).length = width := List.length_replicate
  have hleaf : ∀ i, leaves (productOf (zeroRow width) (zeroRow width) i) = 1 := fun i => by
    rw [productOf_zeroRow]
    rfl
  rw [canonicalDot_value (Nat.le_of_eq hlength.symm) (Nat.le_of_eq hlength.symm)] at h
  have hleaves := congrArg leaves (Except.ok.inj h)
  rw [leaves_rangeValue, List.map_congr_left fun i _ => hleaf i, List.map_const', List.sum_replicate_nat,
    List.length_range', Nat.mul_one] at hleaves
  rcases Nat.eq_zero_or_pos width with hnone | hsome
  · subst hnone
    cases hleaves
  · rw [leaves_canonicalValue _ hsome, Finset.sum_const_nat fun i _ => hleaf i, Finset.card_range, Nat.mul_one] at hleaves
    have hmod := Nat.mod_le width (2 ^ 32)
    unfold canonChunk at *
    omega

/-- One chunk of a row agrees with the reduction when it is all of it. -/
theorem oneChunk_canonical {F : Type} [F32 F] {row : List F} (hsome : 0 < row.length) (hone : row.length ≤ canonChunk) :
    canonicalDot row row row.length = .ok (rangeValue (productOf row row) 0 (row.length % 2 ^ 32)) := by
  have hmod : row.length % 2 ^ 32 = row.length := Nat.mod_eq_of_lt (by unfold canonChunk at hone; omega)
  rw [canonicalDot_value (Nat.le_refl _) (Nat.le_refl _), canonicalValue_chunk _ hsome hone, hmod]

/-! ### What the hosts pass -/

/-- A norm is given this width. -/
def Metal.Dispatch.NormOf {F : Type} (width : UInt32) : Metal.Dispatch F → Prop
  | .rms _ _ _ feat _ _ => feat = width
  | _ => True

def Cuda.Launch.NormOf {F : Type} (width : UInt32) (l : Cuda.Launch F) : Prop :=
  match l.kernel with
  | .rms _ _ _ feat _ _ => feat = width
  | _ => True

section Metal

open Metal MetalForward

variable {G : Type} {mf : MetalForward G} {width : UInt32}

theorem linearInto_norms {acc : Bool} {input : Buf} {wt : WBuf} {out : Buf} {off : Nat} :
    ∀ d ∈ mf.linearInto acc input wt out off, d.NormOf width := by
  intro d hd
  unfold linearInto at hd
  dsimp only at hd
  split at hd
  next => rw [List.mem_singleton.mp hd]; trivial
  next =>
    split at hd
    next => rw [List.mem_singleton.mp hd]; trivial
    next =>
      split at hd
      next =>
        split at hd <;> simp only [List.mem_cons, List.not_mem_nil, or_false] at hd <;>
          rcases hd with rfl | rfl <;> trivial
      next =>
        split at hd
        next =>
          simp only [List.mem_cons, List.not_mem_nil, or_false] at hd
          rcases hd with rfl | rfl <;> trivial
        next => rw [List.mem_singleton.mp hd]; trivial

theorem addBiases_norms {layer koff : Nat} {l : Layer G} {cmds : List (Dispatch G)}
    (h : mf.addBiases layer koff l = .ok cmds) : ∀ d ∈ cmds, d.NormOf width := by
  unfold addBiases at h
  split at h
  next =>
    obtain ⟨bq, -, h⟩ := bind_eq_ok.mp h
    obtain ⟨bk, -, h⟩ := bind_eq_ok.mp h
    obtain ⟨bv, -, h⟩ := bind_eq_ok.mp h
    cases h
    intro d hd
    simp only [List.mem_cons, List.not_mem_nil, or_false] at hd
    rcases hd with rfl | rfl | rfl <;> trivial
  next =>
    cases h
    exact fun d hd => nomatch hd

theorem layerCommands_norms {pos koff layer : Nat} {cmds : List (Dispatch G)}
    (h : mf.layerCommands pos koff layer = .ok cmds) : ∀ d ∈ cmds, d.NormOf (UInt32.ofNat mf.dim) := by
  obtain ⟨l, -, h⟩ := bind_eq_ok.mp h
  obtain ⟨attention, hattention, h⟩ := bind_eq_ok.mp h
  cases h
  obtain ⟨biases, hbiases, hattention⟩ := bind_eq_ok.mp hattention
  obtain ⟨nKv, -, hattention⟩ := bind_eq_ok.mp hattention
  cases hattention
  intro d hd
  simp only [feedForwardCommands, lin, linAcc, List.mem_append, List.mem_cons, List.not_mem_nil, or_false] at hd
  rcases hd with ((((((rfl | hq) | hk) | hv) | hb) | hrest) | ho) | ((rfl | h1) | h3) | rfl | h2
  · rfl
  · exact linearInto_norms d hq
  · exact linearInto_norms d hk
  · exact linearInto_norms d hv
  · exact addBiases_norms hbiases d hb
  · rcases hrest with rfl | rfl | rfl <;> trivial
  · exact linearInto_norms d ho
  · rfl
  · exact linearInto_norms d h1
  · exact linearInto_norms d h3
  · trivial
  · exact linearInto_norms d h2

/-- The norms of a step are given the width of the model. -/
theorem commands_norms {pos : Nat} {cmds : List (Dispatch G)} (h : mf.commands pos = .ok cmds) :
    ∀ d ∈ cmds, d.NormOf (UInt32.ofNat mf.dim) := by
  obtain ⟨row, -, h⟩ := bind_eq_ok.mp h
  obtain ⟨koff, -, h⟩ := bind_eq_ok.mp h
  obtain ⟨body, hbody, h⟩ := bind_eq_ok.mp h
  cases h
  rw [List.forall_mem_append, List.forall_mem_cons]
  refine ⟨fun d hd => ?_, rfl, linearInto_norms⟩
  obtain ⟨i, -, part, hpart, hmem⟩ := (mem_forRange_append hbody d).mp hd
  exact layerCommands_norms hpart d hmem

end Metal

section Cuda

open Cuda VtCuda

variable {G : Type} {h : VtCuda G} {width : UInt32}

theorem lin_norms {input : Ptr} {w : Matrix} {out : Ptr} {m k : Int} {acc : Bool} {regime : Int} :
    ∀ l ∈ (lin input w out m k acc regime : List (Launch G)), l.NormOf width := by
  intro l hl
  unfold Cuda.lin at hl
  dsimp only at hl
  repeat' split at hl
  all_goals
    simp only [List.mem_cons, List.not_mem_nil, or_false] at hl
  · rcases hl with rfl | rfl <;> trivial
  · rcases hl with rfl | rfl <;> trivial
  · rcases hl with rfl | rfl <;> trivial
  · rw [hl]; trivial
  · rw [hl]; trivial
  · rw [hl]; trivial

theorem addBias_norms {v : Ptr} {b : Option (List G)} {n : Int} : ∀ l ∈ addBias v b n, l.NormOf width := by
  intro l hl
  cases b with
  | none => exact nomatch hl
  | some b =>
    rw [List.mem_singleton.mp hl]
    trivial

theorem projectionLaunches_norms {pos : UInt32} {layer : Nat} {l : VtLayer G} :
    ∀ d ∈ h.projectionLaunches pos layer l, d.NormOf (unsigned h.cfg.dim) := by
  intro d hd
  simp only [projectionLaunches, List.mem_append, List.mem_cons] at hd
  rcases hd with (((((rfl | hq) | hk) | hv) | hbq) | hbk) | hbv
  · rfl
  · exact lin_norms d hq
  · exact lin_norms d hk
  · exact lin_norms d hv
  · exact addBias_norms d hbq
  · exact addBias_norms d hbk
  · exact addBias_norms d hbv

theorem restLaunches_norms {pos : UInt32} {layer : Nat} {l : VtLayer G} :
    ∀ d ∈ h.restLaunches pos layer l, d.NormOf (unsigned h.cfg.dim) := by
  intro d hd
  simp only [restLaunches, attentionLaunches, feedForwardLaunches, List.mem_append, List.mem_cons, List.not_mem_nil,
    or_false] at hd
  rcases hd with (hrest | ho) | ((rfl | h1) | h3) | rfl | h2
  · rcases hrest with rfl | rfl | rfl <;> trivial
  · exact lin_norms d ho
  · rfl
  · exact lin_norms d h1
  · exact lin_norms d h3
  · trivial
  · exact lin_norms d h2

/-- The norms that a step launches are given the width of the handle. -/
theorem launched_norms {pos : UInt32} : ∀ d ∈ h.launched pos, d.NormOf (unsigned h.cfg.dim) := by
  intro d hd
  rcases mem_launched.mp hd with ⟨layer, -, -, hd⟩ | ⟨-, hd⟩
  · obtain ⟨l, -, hd | ⟨-, hd⟩⟩ := mem_layerOut.mp hd
    · exact projectionLaunches_norms d hd
    · exact restLaunches_norms d hd
  · rcases List.mem_cons.mp hd with rfl | hd
    · rfl
    · exact lin_norms d hd

end Cuda

/-! ### Every accepted width -/

theorem Cuda.toNat_unsigned_cInt (n : Nat) : (Cuda.unsigned (Cuda.cInt n)).toNat = n % 2 ^ 32 := by
  have hmod : Int.bmod n (2 ^ 32) % 2 ^ 32 = n % 2 ^ 32 := Int.bmod_emod
  unfold Cuda.unsigned Cuda.cInt
  rw [UInt32.toNat_ofNat', hmod]
  omega

/-- A model of which the sizes are there gets a handle. -/
theorem MetalForward.new_ok {G : Type} {cfg : Config} {w : QuantizedWeights G} {headSize kvDim kvMul : Nat}
    (hsize : cfg.headSize = .ok headSize) (hkv : cfg.kvDim = .ok kvDim) (hmul : cfg.kvMul = .ok kvMul)
    (hqOut : cfg.nHeads * headSize < wordSize) (hcache : cfg.seqLen * kvDim * 4 < wordSize)
    (hscratch : Metal.scratch cfg.dim cfg.hiddenDim cfg.vocabSize (cfg.nHeads * headSize) headSize = .ok ()) :
    ∃ mf, MetalForward.new cfg w = .ok mf := by
  have hbuf : (word (cfg.seqLen * kvDim) >>= Metal.zbuf) = .ok (cfg.seqLen * kvDim) := by
    unfold Metal.zbuf
    rw [word_of_lt (by omega), ok_bind, word_of_lt hcache]
    rfl
  obtain ⟨cache, hrun, -⟩ := @collectRange_ok Error Nat cfg.nLayers (fun _ => word (cfg.seqLen * kvDim) >>= Metal.zbuf)
    fun _ _ => ⟨_, hbuf⟩
  unfold MetalForward.new
  rw [hkv, ok_bind, hsize, ok_bind, word_of_lt hqOut, ok_bind, hmul, ok_bind]
  dsimp only
  rw [hrun, ok_bind, ok_bind, hscratch]
  exact ⟨_, rfl⟩

theorem MetalForward.new_dim {G : Type} {cfg : Config} {w : QuantizedWeights G} {mf : MetalForward G}
    (hnew : MetalForward.new cfg w = .ok mf) : mf.dim = cfg.dim := by
  obtain ⟨_, -, hnew⟩ := bind_eq_ok.mp hnew
  obtain ⟨_, -, hnew⟩ := bind_eq_ok.mp hnew
  obtain ⟨_, -, hnew⟩ := bind_eq_ok.mp hnew
  obtain ⟨_, -, hnew⟩ := bind_eq_ok.mp hnew
  obtain ⟨_, -, hnew⟩ := bind_eq_ok.mp hnew
  obtain ⟨_, -, hnew⟩ := bind_eq_ok.mp hnew
  obtain ⟨_, -, hnew⟩ := bind_eq_ok.mp hnew
  cases hnew
  rfl

theorem Cuda.newRegime_dim {G : Type} [F32 G] {maxSeqVar : Option Nat} {device : Cuda.VtCuda G → Bool} {cfg : Config}
    {w : QuantizedWeights G} {regime : Int} {cf : CudaForward G}
    (hnew : Cuda.newRegime maxSeqVar device cfg w regime = .ok cf) : cf.h.cfg.dim = Cuda.cInt cfg.dim := by
  obtain ⟨headSize, kvDim, kvMul, wcls, layers, -, -, -, -, rfl⟩ := newRegime_inv hnew
  dsimp only [forwardOf, vtCudaNew, vtCfg]

/-- `rms_kernel` computes the canonical reduction of every row of a model of this width, whatever the
arithmetic. -/
def MetalForward.NormsCanonical {G : Type} (mf : MetalForward G) (dim : Nat) : Prop :=
  ∀ (F : Type) [F32 F] (row : List F), row.length = dim →
    canonicalDot row row dim = .ok (Metal.rmsSumsq (row.getD · F32.zero) (UInt32.ofNat mf.dim))

/-- So does `k_rms`. -/
def Cuda.VtCuda.NormsCanonical {G : Type} (h : Cuda.VtCuda G) (dim : Nat) : Prop :=
  ∀ (F : Type) [F32 F] (row : List F), row.length = dim →
    canonicalDot row row dim = .ok (Cuda.Device.rmsSumsq (row.getD · F32.zero) (Cuda.unsigned h.cfg.dim))

variable {G : Type} {cfg : Config} {w : QuantizedWeights G}

theorem metal_normsCanonical_iff {mf : MetalForward G} (hnew : MetalForward.new cfg w = .ok mf) :
    mf.NormsCanonical cfg.dim ↔ 0 < cfg.dim ∧ cfg.dim ≤ canonChunk := by
  have hfeat : (UInt32.ofNat mf.dim).toNat = cfg.dim % 2 ^ 32 := by
    rw [UInt32.toNat_ofNat', MetalForward.new_dim hnew]
  constructor
  · intro h
    refine oneChunk_zeroRow ?_
    rw [h Cost (zeroRow cfg.dim) List.length_replicate, Metal.rmsSumsq_eq, hfeat]
  · rintro ⟨hsome, hone⟩ F _ row hlength
    rw [← hlength] at hsome hone hfeat ⊢
    rw [Metal.rmsSumsq_eq, hfeat]
    exact oneChunk_canonical hsome hone

theorem cuda_normsCanonical_iff [F32 G] {maxSeqVar : Option Nat} {device : Cuda.VtCuda G → Bool} {regime : Int}
    {cf : CudaForward G} (hnew : Cuda.newRegime maxSeqVar device cfg w regime = .ok cf) :
    cf.h.NormsCanonical cfg.dim ↔ 0 < cfg.dim ∧ cfg.dim ≤ canonChunk := by
  have hfeat : (Cuda.unsigned cf.h.cfg.dim).toNat = cfg.dim % 2 ^ 32 := by
    rw [Cuda.newRegime_dim hnew, Cuda.toNat_unsigned_cInt]
  constructor
  · intro hall
    refine oneChunk_zeroRow ?_
    have hrow := hall Cost (zeroRow cfg.dim) List.length_replicate
    rw [Cuda.Device.rmsSumsq_eq, hfeat] at hrow
    exact hrow
  · rintro ⟨hsome, hone⟩ F _ row hlength
    rw [← hlength] at hsome hone hfeat ⊢
    rw [Cuda.Device.rmsSumsq_eq, hfeat]
    exact oneChunk_canonical hsome hone

/-- Of a model that a host accepts, every norm of a step gets the width of the model, and its sum of
squares is the canonical reduction exactly when that width is one chunk. -/
theorem norms_canonical_iff_chunk [F32 G] (cfg : Config) (w : QuantizedWeights G) :
    (∀ mf, MetalForward.new cfg w = .ok mf →
      (∀ regime pos cmds, (mf.setRegime regime).commands pos = .ok cmds →
        ∀ d ∈ cmds, d.NormOf (UInt32.ofNat mf.dim)) ∧
      (mf.NormsCanonical cfg.dim ↔ 0 < cfg.dim ∧ cfg.dim ≤ canonChunk)) ∧
    ∀ maxSeqVar device regime cf, Cuda.newRegime maxSeqVar device cfg w regime = .ok cf →
      (∀ pos, ∀ l ∈ cf.h.launched pos, l.NormOf (Cuda.unsigned cf.h.cfg.dim)) ∧
      (cf.h.NormsCanonical cfg.dim ↔ 0 < cfg.dim ∧ cfg.dim ≤ canonChunk) := by
  constructor
  · intro mf hnew
    refine ⟨fun regime pos cmds hrun => ?_, metal_normsCanonical_iff hnew⟩
    have hdim : mf.dim = (mf.setRegime regime).dim := rfl
    rw [hdim]
    exact commands_norms hrun
  · intro maxSeqVar device regime cf hnew
    exact ⟨fun pos => launched_norms, cuda_normsCanonical_iff hnew⟩

/-- A model with rows of two chunks. -/
def twoChunks : Config :=
  ⟨16384, 32, 1, 1, 1, 1, 1, true⟩

def twoChunksWeights : QuantizedWeights Cost where
  tokenEmbeddingTable := ⟨[16384, 1], .q8_0, List.replicate 17408 0, true⟩
  layers :=
    let square : QuantTensor := ⟨[16384, 16384], .q8_0, List.replicate (16384 * 17408) 0, true⟩
    [⟨zeroRow 16384, square, square, square, square, zeroRow 16384,
      ⟨[16384, 32], .q8_0, List.replicate (32 * 17408) 0, true⟩,
      ⟨[32, 16384], .q8_0, List.replicate (16384 * 34) 0, true⟩,
      ⟨[16384, 32], .q8_0, List.replicate (32 * 17408) 0, true⟩, none, none, none⟩]
  rmsFinalWeight := zeroRow 16384
  wcls := none
  ropeTheta := ⟨0⟩
  rmsEps := ⟨0⟩
  ropeNeox := false

/-- Both hosts accept it, and neither kernel computes the reduction of its rows. -/
theorem norms_not_canonical :
    (∃ mf, MetalForward.new twoChunks twoChunksWeights = .ok mf ∧ ¬mf.NormsCanonical 16384) ∧
      ∃ cf, Cuda.newRegime none (fun _ => true) twoChunks twoChunksWeights 2 = .ok cf ∧
        ¬cf.h.NormsCanonical 16384 := by
  have hwide : ¬(0 < twoChunks.dim ∧ twoChunks.dim ≤ canonChunk) := by decide
  constructor
  · obtain ⟨mf, hnew⟩ := @MetalForward.new_ok Cost twoChunks twoChunksWeights 16384 16384 1 rfl rfl rfl (by decide)
      (by decide) (by decide)
    exact ⟨mf, hnew, fun h => hwide ((metal_normsCanonical_iff hnew).mp h)⟩
  · have hnew := @Cuda.newRegime_ok Cost _ none (fun _ => true) twoChunks twoChunksWeights 2 16384 16384 1 _ _
      (fun _ => rfl) rfl rfl rfl (by decide : 16384 < wordSize) (by decide) (by decide : 1 < 2 ^ 31) rfl rfl rfl
    exact ⟨_, hnew, fun h => hwide ((cuda_normsCanonical_iff hnew).mp h)⟩

end VitniTensor
