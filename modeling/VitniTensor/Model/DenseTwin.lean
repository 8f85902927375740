import VitniTensor.Model.NetRuns

/-!
# The F32 twin of a quantized pass

Decoding every matrix gives plain weights, and with them a pass of the F32 path for the quantized pass. The two
compute one net, except that the twin adds up scores and value sums in order. Without rounding that makes no
difference.
-/

namespace VitniTensor

open Outcome Exec Rows

variable {F : Type} [F32 F]

/-! ### Decoded weights -/

/-- One section of the plain weights: the matrices of all layers, decoded. -/
def dequantizeLayers (layers : List (QuantLayer F)) (matrix : QuantLayer F → QuantTensor) : Res (List F) := do
  let mats ← layers.mapM fun blk => (matrix blk).decoded
  pure mats.flatten

/-- The plain weights that quantized ones stand for. -/
def dequantizeWeights (w : QuantizedWeights F) : Res (Weights F) := do
  let tokenEmbeddingTable ← w.tokenEmbeddingTable.decoded
  let wq ← dequantizeLayers w.layers (·.wq)
  let wk ← dequantizeLayers w.layers (·.wk)
  let wv ← dequantizeLayers w.layers (·.wv)
  let wo ← dequantizeLayers w.layers (·.wo)
  let w1 ← dequantizeLayers w.layers (·.w1)
  let w2 ← dequantizeLayers w.layers (·.w2)
  let w3 ← dequantizeLayers w.layers (·.w3)
  let wcls ← match w.wcls with
    | some t => t.decoded
    | none => pure tokenEmbeddingTable
  pure { tokenEmbeddingTable, wq, wk, wv, wo, w1, w2, w3, wcls,
         rmsAttWeight := (w.layers.map (·.rmsAttWeight)).flatten,
         rmsFfnWeight := (w.layers.map (·.rmsFfnWeight)).flatten,
         rmsFinalWeight := w.rmsFinalWeight }

/-- The matrices of all layers, decoded. -/
def tableLayers (layers : List (QuantLayer F)) (matrix : QuantLayer F → QuantTensor) : List F :=
  (layers.map fun blk => (matrix blk).table).flatten

/-- What `dequantizeWeights` returns on matrices that hold their rows. -/
def QuantizedWeights.tables (w : QuantizedWeights F) : Weights F where
  tokenEmbeddingTable := w.tokenEmbeddingTable.table
  rmsAttWeight := (w.layers.map (·.rmsAttWeight)).flatten
  wq := tableLayers w.layers (·.wq)
  wk := tableLayers w.layers (·.wk)
  wv := tableLayers w.layers (·.wv)
  wo := tableLayers w.layers (·.wo)
  rmsFfnWeight := (w.layers.map (·.rmsFfnWeight)).flatten
  w1 := tableLayers w.layers (·.w1)
  w2 := tableLayers w.layers (·.w2)
  w3 := tableLayers w.layers (·.w3)
  rmsFinalWeight := w.rmsFinalWeight
  wcls := match w.wcls with
    | some t => t.table
    | none => w.tokenEmbeddingTable.table

section Layers

variable {layers : List (QuantLayer F)} {matrix : QuantLayer F → QuantTensor} {inFeat outFeat n : Nat}

theorem dequantizeLayers_eq_ok {xs : List F} (h : dequantizeLayers layers matrix = .ok xs) :
    xs = tableLayers layers matrix := by
  obtain ⟨mats, hmats, h⟩ := bind_eq_ok.mp h
  cases h
  obtain ⟨hlength, heach⟩ := mapM_eq_ok hmats
  unfold tableLayers
  congr 1
  refine List.ext_getElem? fun i => ?_
  rw [List.getElem?_map]
  cases hblk : layers[i]? with
  | none =>
    rw [List.getElem?_eq_none_iff] at hblk
    exact List.getElem?_eq_none (by omega)
  | some blk =>
    obtain ⟨mat, hmat, hdecoded⟩ := heach i blk hblk
    rw [hmat, Option.map_some, QuantTensor.decoded_eq_ok hdecoded]

omit [F32 F] in
/-- Rows put one after the other. -/
theorem length_flatten_rows {rowOf : QuantLayer F → List F} (h : ∀ blk ∈ layers, (rowOf blk).length = n) :
    (layers.map rowOf).flatten.length = layers.length * n := by
  have hrows : ∀ xs ∈ layers.map rowOf, xs.length = n := by
    intro xs hmem
    obtain ⟨blk, hblk, rfl⟩ := List.mem_map.mp hmem
    exact h blk hblk
  rw [List.length_flatten, List.map_congr_left hrows, List.map_const', List.sum_replicate_nat, List.length_map]

omit [F32 F] in
/-- The part of layer `layer` in a section. -/
theorem row_flatten {rowOf : QuantLayer F → List F} (h : ∀ blk ∈ layers, (rowOf blk).length = n) {layer : Nat}
    {blk : QuantLayer F} (hblk : layers[layer]? = some blk) : row n (layers.map rowOf).flatten layer = rowOf blk := by
  obtain ⟨hlayer, -⟩ := List.getElem?_eq_some_iff.mp hblk
  have hslice : (slice (layers.map rowOf).flatten (layer * n) ((layer + 1) * n) : Res (List F)) = .ok (rowOf blk) := by
    refine slice_flatten (fun xs hmem => ?_) ?_
    · obtain ⟨b, hb, rfl⟩ := List.mem_map.mp hmem
      exact h b hb
    · rw [List.getElem?_map, hblk, Option.map_some]
  rw [Nat.succ_mul, slice_eq_row hlayer (length_flatten_rows h)] at hslice
  exact Except.ok.inj hslice

end Layers

/-- Where the plain weights fit in memory, they are the tables. -/
theorem dequantizeWeights_eq_ok {w : QuantizedWeights F} {wd : Weights F} (h : dequantizeWeights w = .ok wd) :
    wd = w.tables := by
  obtain ⟨embedding, hembedding, h⟩ := bind_eq_ok.mp h
  obtain ⟨wq, hwq, h⟩ := bind_eq_ok.mp h
  obtain ⟨wk, hwk, h⟩ := bind_eq_ok.mp h
  obtain ⟨wv, hwv, h⟩ := bind_eq_ok.mp h
  obtain ⟨wo, hwo, h⟩ := bind_eq_ok.mp h
  obtain ⟨w1, hw1, h⟩ := bind_eq_ok.mp h
  obtain ⟨w2, hw2, h⟩ := bind_eq_ok.mp h
  obtain ⟨w3, hw3, h⟩ := bind_eq_ok.mp h
  unfold QuantizedWeights.tables
  rw [← QuantTensor.decoded_eq_ok hembedding, ← dequantizeLayers_eq_ok hwq, ← dequantizeLayers_eq_ok hwk,
    ← dequantizeLayers_eq_ok hwv, ← dequantizeLayers_eq_ok hwo, ← dequantizeLayers_eq_ok hw1,
    ← dequantizeLayers_eq_ok hw2, ← dequantizeLayers_eq_ok hw3]
  cases hown : w.wcls with
  | none =>
    rw [hown] at h
    cases h
    rfl
  | some t =>
    rw [hown] at h
    obtain ⟨wcls, hwcls, h⟩ := bind_eq_ok.mp h
    cases h
    dsimp only
    rw [QuantTensor.decoded_eq_ok hwcls]

/-! ### Twins -/

/-- The pass of the F32 path for a quantized pass. -/
def Pass.dense (p : Pass F) : DensePass F :=
  ⟨p.cfg, p.weights.tables, p.pos, p.kvDim, p.kvMul, p.headSize⟩

/-- The constants of the F32 path, and weights whose plain form is in memory. -/
structure Pass.HasTwin (p : Pass F) : Prop where
  float : p.IsFloat
  theta : p.weights.ropeTheta = ropeBase
  eps : p.weights.rmsEps = rmsEpsilon
  memory : p.weights.tables.InMemory
  seqLen : p.cfg.seqLen < wordSize

section Twin

variable {p : Pass F}

theorem Pass.IsFloat.tables_sized (hp : p.IsFloat) : p.weights.tables.Sized p.cfg p.kvDim := by
  have hsection : ∀ {rowOf : QuantLayer F → List F} {n : Nat}, (∀ blk ∈ p.weights.layers, (rowOf blk).length = n) →
      (p.weights.layers.map rowOf).flatten.length = p.cfg.nLayers * n := by
    intro rowOf n h
    rw [length_flatten_rows h, hp.sized.layers]
  have hhead : p.weights.tables.wcls.length = p.cfg.vocabSize * p.cfg.dim := by
    have hlength := hp.lmHead.reads.length (F := F)
    unfold Pass.lmHead at hlength
    unfold QuantizedWeights.tables
    cases hwcls : p.weights.wcls with
    | none => rwa [hwcls] at hlength
    | some t => rwa [hwcls] at hlength
  exact {
    embedding := hp.sized.embedding.reads.length
    rmsAtt := hsection fun blk h => (hp.sized.each blk h).rmsAtt
    wq := hsection fun blk h => (hp.block_sized h).wq
    wk := hsection fun blk h => (hp.block_sized h).wk.trans (Nat.mul_comm _ _)
    wv := hsection fun blk h => (hp.block_sized h).wv.trans (Nat.mul_comm _ _)
    wo := hsection fun blk h => (hp.block_sized h).wo
    rmsFfn := hsection fun blk h => (hp.sized.each blk h).rmsFfn
    w1 := hsection fun blk h => (hp.block_sized h).w1.trans (Nat.mul_comm _ _)
    w2 := hsection fun blk h => (hp.block_sized h).w2
    w3 := hsection fun blk h => (hp.block_sized h).w3.trans (Nat.mul_comm _ _)
    rmsFinal := hp.sized.rmsFinal
    wcls := hhead }

theorem Pass.HasTwin.isSized (hp : p.HasTwin) : p.dense.IsSized where
  shaped := by
    have hshaped := hp.float.shaped
    exact ⟨hshaped.dim, hshaped.kvDim, hshaped.group, hshaped.even, hshaped.kvMulPos, hshaped.head, hshaped.fits⟩
  dim := hp.float.dim
  weights := hp.float.tables_sized
  memory := hp.memory
  seqLen := hp.seqLen

/-- The twin has the weights of the pass, layer by layer. -/
theorem Pass.HasTwin.block_eq (hp : p.HasTwin) {layer : Nat} {blk : QuantLayer F}
    (hblk : p.weights.layers[layer]? = some blk) : p.dense.block layer = blk.block := by
  have hfloat := hp.float
  have hpart : ∀ {rowOf : QuantLayer F → List F} {n : Nat}, (∀ blk ∈ p.weights.layers, (rowOf blk).length = n) →
      row n (p.weights.layers.map rowOf).flatten layer = rowOf blk := fun h => row_flatten h hblk
  unfold DensePass.block QuantLayer.block
  simp only [Block.mk.injEq]
  exact ⟨hpart fun b h => (hfloat.sized.each b h).rmsAtt, hpart fun b h => (hfloat.block_sized h).wq,
    hpart fun b h => (hfloat.block_sized h).wk.trans (Nat.mul_comm _ _), hpart fun b h => (hfloat.block_sized h).wv.trans (Nat.mul_comm _ _), hpart fun b h => (hfloat.block_sized h).wo,
    hpart fun b h => (hfloat.sized.each b h).rmsFfn, hpart fun b h => (hfloat.block_sized h).w1.trans (Nat.mul_comm _ _),
    hpart fun b h => (hfloat.block_sized h).w2, hpart fun b h => (hfloat.block_sized h).w3.trans (Nat.mul_comm _ _)⟩

/-- The pass and its twin have one net. -/
theorem Pass.HasTwin.net_eq (hp : p.HasTwin) : p.dense.net CpuArchitecture.llamaValues = p.net := by
  have hblocks : (List.range p.cfg.nLayers).map p.dense.block = p.weights.layers.map QuantLayer.block := by
    refine List.ext_getElem ?_ fun layer h₁ h₂ => ?_
    · rw [List.length_map, List.length_range, List.length_map, hp.float.sized.layers]
    · rw [List.getElem_map, List.getElem_map, List.getElem_range]
      exact hp.block_eq (List.getElem?_eq_getElem _)
  have hhead : p.weights.tables.wcls = p.lmHead.1.table := by
    unfold QuantizedWeights.tables Pass.lmHead
    cases p.weights.wcls with
    | none => rfl
    | some t => rfl
  have hangle : (fun pos => (p.dense.atPos pos).frame.pairAngle) = fun pos => (p.atPos pos).pairAngle := by
    funext pos m
    unfold Pass.pairAngle Pass.angle
    rw [show (p.atPos pos).weights.ropeTheta = ropeBase from hp.theta]
    rfl
  unfold DensePass.net Pass.net
  rw [Net.mk.injEq]
  exact ⟨rfl, rfl, rfl, rfl, rfl, rfl, rfl, rfl, hblocks, rfl, hhead, rfl, by rw [hp.eps]; rfl, rfl, hangle⟩

/-! ### Runs side by side -/

variable {build : Build} {blake3 : Blake3} {cfg : Config} {w : QuantizedWeights F} {wd : Weights F}

/-- The twin derives the sizes of the pass. -/
theorem of_dense {regime : UInt8} (hpass : passOf build blake3 cfg w none 0 regime = .ok p) (hp : p.IsFloat)
    (hwd : dequantizeWeights w = .ok wd) : DensePass.of cfg wd 0 = .ok p.dense := by
  obtain ⟨kvDim, hkvDim, hpass⟩ := bind_eq_ok.mp hpass
  obtain ⟨kvMul, hkvMul, hpass⟩ := bind_eq_ok.mp hpass
  obtain ⟨headSize, hheadSize, hpass⟩ := bind_eq_ok.mp hpass
  cases hpass
  cases dequantizeWeights_eq_ok hwd
  unfold DensePass.of
  rw [hkvDim, ok_bind, hkvMul, ok_bind, hheadSize, ok_bind]
  rfl

/-- The twin computes the net of the pass, with sums in order. -/
theorem Pass.HasTwin.computes {regime : UInt8} (hpass : passOf build blake3 cfg w none 0 regime = .ok p) (hp : p.HasTwin)
    (hwd : dequantizeWeights w = .ok wd) :
    p.Computes serialValue p.net (fun _ => True) (DensePass.step cfg wd) := by
  have hdense := hp.isSized.llama_computes (of_dense hpass hp.float hwd)
  rw [hp.net_eq] at hdense
  refine ⟨hdense.sized, hdense.layers, hdense.kvDim, hdense.vocabSize, fun {pos token s} hpos hs hready htoken => ?_⟩
  obtain ⟨z, heval, hz⟩ := hdense.step hpos ⟨hs.keys, hs.values⟩ hready htoken
  rw [@RunState.writeRows_frame F (p.dense.frame.atPos pos) (p.atPos pos) rfl rfl rfl] at heval
  exact ⟨z, heval, hz⟩

/-- On every float matrix and its decoded twin, the quantized pass and the F32 pass compute one net and differ in
nothing but how attention adds up: in fixed chunks and lanes, or in order. -/
theorem cross_check {s : RunState F} (hpass : passOf build blake3 cfg w none 0 s.regime = .ok p) (hp : p.HasTwin)
    (hwd : dequantizeWeights w = .ok wd) (hs : s.Fits p) {tokens : List UInt32} (hcount : tokens.length ≤ cfg.seqLen)
    (htokens : ∀ token ∈ tokens, token.toNat < cfg.vocabSize) :
    ∃ ys zs s₁ s₂, (forwardAll (step build blake3 cfg w) tokens.zipIdx).eval s = (.ok ys, s₁) ∧
      (forwardAll (DensePass.step cfg wd) tokens.zipIdx).eval s = (.ok zs, s₂) ∧
      List.Forall₂ (fun y row => y.Is [cfg.vocabSize] row) ys (p.net.run canonicalValue [] tokens).1 ∧
      List.Forall₂ (fun z row => z.Is [cfg.vocabSize] row) zs (p.net.run serialValue [] tokens).1 := by
  have hcfg := passOf_cfg hpass
  subst hcfg
  have hcount' : ([] : List (List (KeyValue F))).length + tokens.length ≤ p.cfg.seqLen := by
    rw [List.length_nil, Nat.zero_add]
    exact hcount
  obtain ⟨ys, s₁, hrun, hys, -⟩ := (hp.float.computes hpass).run hcount' htokens hs.remembers rfl
  obtain ⟨zs, s₂, hrun', hzs, -⟩ := (hp.computes hpass hwd).run hcount' htokens hs.remembers trivial
  exact ⟨ys, zs, s₁, s₂, hrun, hrun', hys, hzs⟩

end Twin

/-! ### Without rounding -/

section Exact

variable {R : Type} [CommSemiring R] [F32 R]

theorem serialValue_exact (h : F32.Exact R) (v : Nat → R) (n : Nat) : serialValue v n = ∑ i ∈ Finset.range n, v i := by
  induction n with
  | zero => exact h.zero
  | succ n ih => rw [serialValue_succ, ih, h.add, Finset.sum_range_succ]

theorem canonical_eq_serial (h : F32.Exact R) : (canonicalValue : Reduction R) = serialValue := by
  funext v n
  rw [canonicalValue_exact h, serialValue_exact h]

/-- Without rounding the two passes do the same: the same logits at every position, and the same caches. -/
theorem passes_agree_exactly (h : F32.Exact R) {build : Build} {blake3 : Blake3} {cfg : Config} {w : QuantizedWeights R}
    {wd : Weights R} {p : Pass R} {s : RunState R} (hpass : passOf build blake3 cfg w none 0 s.regime = .ok p)
    (hp : p.HasTwin) (hwd : dequantizeWeights w = .ok wd) (hs : s.Fits p) {tokens : List UInt32}
    (hcount : tokens.length ≤ cfg.seqLen) (htokens : ∀ token ∈ tokens, token.toNat < cfg.vocabSize) :
    (forwardAll (step build blake3 cfg w) tokens.zipIdx).eval s = (forwardAll (DensePass.step cfg wd) tokens.zipIdx).eval s := by
  have hcfg := passOf_cfg hpass
  subst hcfg
  have hquantized := hp.float.computes hpass
  rw [canonical_eq_serial h] at hquantized
  exact hquantized.same_run (hp.computes hpass hwd) (by omega) htokens hs rfl trivial

theorem smallPass_hasTwin {F : Type} [F32 F] : (smallPass : Pass F).HasTwin := by
  have hsized := (smallPass_isFloat : (smallPass : Pass F).IsFloat).tables_sized
  have hshort : ∀ {xs : List F} {n : Nat}, xs.length = n → n ≤ 16 → xs.length * 4 < 2 ^ 63 := by omega
  exact {
    float := smallPass_isFloat
    theta := rfl
    eps := rfl
    memory := ⟨hshort hsized.wq (show 16 ≤ 16 by decide), hshort hsized.wk (show 8 ≤ 16 by decide),
      hshort hsized.w1 (show 8 ≤ 16 by decide), hshort hsized.rmsFinal (show 4 ≤ 16 by decide),
      hshort hsized.wcls (show 8 ≤ 16 by decide)⟩
    seqLen := show 2 < wordSize by decide }

theorem zeroMatrix_decoded {F : Type} [F32 F] (n : Nat) :
    (zeroMatrix n).decoded = .ok ((zeroMatrix n).table : List F) := by
  have hlength : (zeroMatrix n).bytes.length = n * 4 := List.length_replicate
  change f32View (zeroMatrix n).bytes true = _
  unfold f32View
  rw [if_neg (by omega)]
  rfl

theorem smallWeights_decoded {F : Type} [F32 F] :
    dequantizeWeights (smallWeights : QuantizedWeights F) = .ok smallWeights.tables := by
  unfold dequantizeWeights dequantizeLayers smallWeights
  simp only [List.mapM_cons, List.mapM_nil, zeroMatrix_decoded, ok_bind, pure_bind]
  rfl

section Naturals

attribute [local instance] F32.ofSemiring

theorem passes_agree_exactly_small :
    (forwardAll (step .serial noHash twoHeads smallWeights) [(1, 0), (0, 1)]).eval (smallState (3 : Nat)) =
      (forwardAll (DensePass.step twoHeads (smallWeights : QuantizedWeights Nat).tables) [(1, 0), (0, 1)]).eval
        (smallState 3) :=
  @passes_agree_exactly Nat _ _ (F32.exact_ofSemiring Nat) .serial noHash twoHeads smallWeights _ smallPass (smallState 3)
    smallPass_of smallPass_hasTwin smallWeights_decoded ⟨rfl, rfl⟩ [1, 0] (Nat.le_refl 2) smallTokens

end Naturals

end Exact

end VitniTensor
