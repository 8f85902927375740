import VitniTensor.Model.CacheFrame
import VitniTensor.Model.Net
import VitniTensor.Ops.SoftmaxLoops

/-!
# The quantized pass as a net

On matrices of any float dtype, in regime 2, a step of the quantized pass computes the net of the decoded
tables, with the canonical reduction in attention. Only Q6_K matrices are excluded: their linear goes through
integers.
-/

namespace VitniTensor

open Outcome Rows Rope

variable {F : Type} [F32 F]

/-! ### Values of the operations -/

theorem dotValue_eq {x w : List F} {n : Nat} (hx : n ≤ x.length) (hw : n ≤ w.length) :
    dotValue x w n = canonicalValue (productOf x w) n := by
  have hdot := canonicalDot_eq hx hw
  rw [canonicalDot_value hx hw] at hdot
  exact (Except.ok.inj hdot).symm

/-- One row, normalized and scaled. -/
def rmsValue (ws : List F) (eps : F) (xs : List F) : List F :=
  let mean := F32.div (canonicalValue (productOf xs xs) xs.length) (F32.ofInt xs.length)
  let scale := F32.div F32.one (F32.sqrtf (F32.add mean eps))
  List.zipWith (fun v w => F32.mul (F32.mul v scale) w) xs ws

/-- A vector is one row. -/
theorem rmsNormSlice_value {n : Nat} (hn : 0 < n) {x : Tensor F} {xs ws : List F} (hx : x.Is [n] xs)
    (hxs : xs.length = n) (hws : ws.length = n) (eps : F) :
    ∃ z, rmsNormSlice x ws eps = .ok z ∧ z.Is [n] (rmsValue ws eps xs) := by
  have hone : xs.length / n = 1 := by rw [hxs, Nat.div_self hn]
  have hrow : rmsRow ws eps n xs = .ok (rmsValue ws eps xs) := by
    unfold rmsRow
    rw [canonicalDot_value hxs.ge hxs.ge, ok_bind]
    unfold rmsValue
    rw [hxs]
    rfl
  have hlength : (rmsValue ws eps xs).length = n := by
    unfold rmsValue
    rw [List.length_zipWith, hxs, hws, Nat.min_self]
  have hrows : rmsRows xs ws eps n 1 = .ok (rmsValue ws eps xs) :=
    forRange_one_row hxs List.length_replicate hrow hlength
  obtain ⟨z, hz, his⟩ := hx.fromF32_ok (hlength.trans hxs.symm)
  refine ⟨z, ?_, his⟩
  unfold rmsNormSlice
  rw [if_neg (not_not_intro hx.dtype), Tensor.isContiguous_eq, ok_bind]
  simp only [Bool.not_true, Bool.false_eq_true, if_false, hx.dims, List.isEmpty_cons, List.getLastD_cons,
    List.getLastD_nil, hws, ne_eq, not_true_eq_false, hx.data, div_of_pos hn, ok_bind, hone, hrows, hz]

theorem softmaxInplace_value (xs : List F) : softmaxInplace xs = .ok (softmaxValue xs) := by
  unfold softmaxInplace softmaxValue
  dsimp only
  rw [canonicalSum_value (Nat.le_refl _), ok_bind, List.length_map]
  rfl

/-! ### The net of a pass -/

def QuantLayer.block (blk : QuantLayer F) : Block F where
  rmsAtt := blk.rmsAttWeight
  wq := blk.wq.table
  wk := blk.wk.table
  wv := blk.wv.table
  wo := blk.wo.table
  rmsFfn := blk.rmsFfnWeight
  w1 := blk.w1.table
  w2 := blk.w2.table
  w3 := blk.w3.table

/-- What the pass computes, at every position. -/
def Pass.net (p : Pass F) : Net F where
  dim := p.cfg.dim
  hiddenDim := p.cfg.hiddenDim
  nHeads := p.cfg.nHeads
  headSize := p.headSize
  kvMul := p.kvMul
  kvDim := p.kvDim
  vocabSize := p.cfg.vocabSize
  embedding := p.weights.tokenEmbeddingTable.table
  blocks := p.weights.layers.map QuantLayer.block
  rmsFinal := p.weights.rmsFinalWeight
  head := p.lmHead.1.table
  scale := id
  norm := fun ws xs => rmsValue ws p.weights.rmsEps xs
  act := Tensor.siluOf
  angle := fun pos => (p.atPos pos).pairAngle

/-- Neither integers nor biases. -/
structure QuantLayer.IsFloat (blk : QuantLayer F) : Prop where
  wq : blk.wq.dtype ≠ .q6_k
  wk : blk.wk.dtype ≠ .q6_k
  wv : blk.wv.dtype ≠ .q6_k
  wo : blk.wo.dtype ≠ .q6_k
  w1 : blk.w1.dtype ≠ .q6_k
  w2 : blk.w2.dtype ≠ .q6_k
  w3 : blk.w3.dtype ≠ .q6_k
  noBias : blk.bq = none ∧ blk.bk = none ∧ blk.bv = none

/-- A pass on float matrices of the exact size, in the layout of Llama. -/
structure Pass.IsFloat (p : Pass F) : Prop where
  shaped : p.WellShaped
  quiet : p.plan = none
  regime : p.regime ≠ 3
  dim : 0 < p.cfg.dim
  sized : p.weights.Sized p.cfg p.headSize
  layers : ∀ blk ∈ p.weights.layers, blk.IsFloat
  head : p.lmHead.1.dtype ≠ .q6_k
  neox : p.weights.ropeNeox = false

theorem length_rmsValue (eps : F) {ws xs : List F} (h : ws.length = xs.length) : (rmsValue ws eps xs).length = xs.length := by
  unfold rmsValue
  rw [List.length_zipWith, h, Nat.min_self]

section Sizes

variable {p : Pass F}

omit [F32 F] in
theorem Pass.IsFloat.lmHead (hp : p.IsFloat) : p.lmHead.1.Holds p.cfg.dim p.cfg.vocabSize := by
  unfold Pass.lmHead
  cases hwcls : p.weights.wcls with
  | none => exact hp.sized.tied hwcls
  | some t => exact hp.sized.wcls t hwcls

theorem Pass.IsFloat.block_sized (hp : p.IsFloat) {blk : QuantLayer F} (hmem : blk ∈ p.weights.layers) :
    blk.block.Sized p.net := by
  have hsized := hp.sized.each blk hmem
  have hq := hsized.wq.reads.length (F := F)
  have hk := hsized.wk.reads.length (F := F)
  have hv := hsized.wv.reads.length (F := F)
  rw [← hp.shaped.dim] at hq
  rw [← hp.shaped.kvDim] at hk hv
  exact ⟨hsized.rmsAtt, hq, hk, hv, hsized.wo.reads.length, hsized.rmsFfn, hsized.w1.reads.length,
    hsized.w2.reads.length, hsized.w3.reads.length⟩

theorem Pass.IsFloat.net_sized (hp : p.IsFloat) : p.net.Sized where
  heads := hp.shaped.dim
  dim := hp.dim
  norm := fun hws hxs => (length_rmsValue _ (hws.trans hxs.symm)).trans hxs
  embedding := hp.sized.embedding.reads.length
  blocks := by
    intro block hmem
    obtain ⟨blk, hblk, rfl⟩ := List.mem_map.mp hmem
    exact hp.block_sized hblk
  rmsFinal := hp.sized.rmsFinal
  head := hp.lmHead.reads.length

omit [F32 F] in
theorem Pass.IsFloat.lt_nLayers (hp : p.IsFloat) {layer : Nat} {blk : QuantLayer F}
    (hget : p.weights.layers[layer]? = some blk) : layer < p.cfg.nLayers := by
  rw [← hp.sized.layers]
  exact (List.getElem?_eq_some_iff.mp hget).1

end Sizes

/-! ### The parts of a step -/

namespace Causal

/-- Output projection and residual, in a block. -/
def attnOutput (p : Pass F) (blk : QuantLayer F) (x : Tensor F) (heads : List F) : Res (Tensor F) := do
  let out ← linear p heads blk.wo p.cfg.dim p.cfg.dim
  let out ← vectorTensor out p.cfg.dim
  x.add out

/-- The FFN of a block, and its residual. -/
def feedForward (p : Pass F) (blk : QuantLayer F) (x : Tensor F) : Res (Tensor F) := do
  let xb ← normalized p x blk.rmsFfnWeight
  let gate ← linear p xb blk.w1 p.cfg.dim p.cfg.hiddenDim
  let up ← linear p xb blk.w3 p.cfg.dim p.cfg.hiddenDim
  let inner ← swiGlu gate up p.cfg.hiddenDim
  let down ← linear p inner blk.w2 p.cfg.hiddenDim p.cfg.dim
  let down ← vectorTensor down p.cfg.dim
  x.add down

theorem block_eq (p : Pass F) (blk : QuantLayer F) (x : Tensor F) (q : List F) (keys values : List (List F)) :
    block p blk x q keys values = attention p q keys values >>= fun heads =>
      attnOutput p blk x heads >>= feedForward p blk := by
  unfold block attnOutput feedForward
  simp only [bind_assoc]

end Causal

section Parts

variable {p : Pass F} {blk : QuantLayer F} {x : Tensor F} {xs : List F}

theorem swiGlu_value {gate up : List F} {n : Nat} (hgate : gate.length = n) (hup : up.length = n) :
    swiGlu gate up n = .ok (p.net.gated gate up) :=
  collectRange_zipWith hgate hup fun g u => F32.mul (Tensor.siluOf g) u

theorem linear_value {t : QuantTensor} {inFeat outFeat : Nat} (hp : p.IsFloat) (ht : t.Holds inFeat outFeat)
    (hdtype : t.dtype ≠ .q6_k) {x : List F} (hx : x.length = inFeat) :
    Causal.linear p x t inFeat outFeat = .ok (rowProducts x t.table inFeat outFeat) :=
  ht.reads.linear hdtype ht.decodes p.build x p.regime hp.regime hx

theorem normalized_value (hp : p.IsFloat) {ws : List F} (hx : x.Is [p.cfg.dim] xs) (hxs : xs.length = p.cfg.dim)
    (hws : ws.length = p.cfg.dim) :
    Causal.normalized p x ws = .ok (p.net.norm ws xs) ∧ (p.net.norm ws xs).length = p.cfg.dim := by
  obtain ⟨z, hz, his⟩ := rmsNormSlice_value hp.dim hx hxs hws p.weights.rmsEps
  refine ⟨?_, hp.net_sized.norm hws hxs⟩
  unfold Causal.normalized tensorAsF32
  rw [hz, ok_bind, his.data]
  rfl

omit [F32 F] in
theorem vectorTensor_value {n : Nat} (hxs : xs.length = n) (hn : n < wordSize) :
    ∃ z, vectorTensor xs n = .ok z ∧ z.Is [n] xs :=
  DensePass.vector_ok hxs hn

theorem queryKeyValue_value (hp : p.IsFloat) (hmem : blk ∈ p.weights.layers) (hx : x.Is [p.cfg.dim] xs)
    (hxs : xs.length = p.cfg.dim) : Causal.queryKeyValue p blk x = .ok (p.net.queryKeyValue p.pos blk.block xs) := by
  have hshaped := hp.shaped
  have hsized := hp.sized.each blk hmem
  have hfloat := hp.layers blk hmem
  obtain ⟨hnorm, hlength⟩ := normalized_value hp hx hxs hsized.rmsAtt
  have hrotate : ∀ {n : Nat} {ys : List F}, ys.length = n * p.headSize →
      Causal.rotated p n ys = .ok (interleaved p.pairAngle ys) :=
    fun h => Causal.rotated_interleaved hp.neox hshaped.even h
  unfold Causal.queryKeyValue
  rw [hnorm, ok_bind, linear_value hp hsized.wq hfloat.wq hlength, ok_bind, hshaped.kvDim,
    linear_value hp hsized.wk hfloat.wk hlength, ok_bind, linear_value hp hsized.wv hfloat.wv hlength, ok_bind,
    hfloat.noBias.1, hfloat.noBias.2.1, hfloat.noBias.2.2]
  unfold addBias
  dsimp only
  rw [hrotate (length_rowProducts ..), ok_bind, hrotate (length_rowProducts ..), ok_bind]
  unfold Net.queryKeyValue Pass.net
  rw [hshaped.dim, hshaped.kvDim]
  rfl

theorem score_value (hp : p.WellShaped) {q key : List F} (hq : q.length = p.cfg.dim) {h : Nat} (hh : h < p.cfg.nHeads)
    (hkey : key.length = p.kvDim) : Causal.score p q h key = .ok (p.net.score canonicalValue q h key) := by
  have hhead : (row p.headSize q h).length = p.headSize := length_row hh (by rw [hq, hp.dim])
  have hkv := Causal.length_kvHead hp hh hkey
  unfold Causal.score
  rw [canonicalDot_value hhead.ge hkv.ge, ok_bind]
  rfl

theorem valueSum_value (hp : p.WellShaped) {values : List (List F)} (hvalues : Causal.AreRows p values) {att : List F}
    (hatt : att.length = values.length) {h d : Nat} (hh : h < p.cfg.nHeads) (hd : d < p.headSize) :
    Causal.valueSum p att values h d = .ok (p.net.valueSum canonicalValue att values h d) := by
  have hcolumn : ∀ value ∈ values, (index (row p.headSize value (h / p.kvMul)) d : Res F) =
      .ok ((row p.headSize value (h / p.kvMul)).getD d F32.zero) := by
    intro value hmem
    exact index_getD (by rw [Causal.length_kvHead hp hh (hvalues value hmem)]; exact hd)
  unfold Causal.valueSum
  rw [mapM_eq_map hcolumn, ok_bind, canonicalDot_value hatt.ge (by rw [List.length_map])]
  rfl

theorem attention_value (hp : p.WellShaped) {q : List F} {keys values : List (List F)} (hq : q.length = p.cfg.dim)
    (hkeys : Causal.AreRows p keys) (hvalues : Causal.AreRows p values) (hboth : keys.length = values.length) :
    Causal.attention p q keys values = .ok (p.net.attention canonicalValue q keys values) := by
  have hheads : ∀ h < p.cfg.nHeads, Causal.head p q keys values h =
      .ok (p.net.attentionHead canonicalValue q keys values h) := by
    intro h hh
    unfold Causal.head
    rw [mapM_eq_map fun key hmem => score_value hp hq hh (hkeys key hmem), ok_bind, softmaxInplace_value, ok_bind]
    refine collectRange_eq fun d hd => valueSum_value hp hvalues ?_ hh hd
    rw [length_softmaxValue, List.length_map, hboth]
  unfold Causal.attention
  rw [collectRange_eq hheads, ok_bind]
  rfl

/-- Output projection and residual. -/
theorem attnOutput_value (hp : p.IsFloat) (hmem : blk ∈ p.weights.layers) (hx : x.Is [p.cfg.dim] xs)
    (hxs : xs.length = p.cfg.dim) {heads : List F} (hheads : heads.length = p.cfg.dim) :
    ∃ z, Causal.attnOutput p blk x heads = .ok z ∧ z.Is [p.cfg.dim] (p.net.attnOutput blk.block xs heads) := by
  obtain ⟨out, hout, hisOut⟩ := vectorTensor_value (length_rowProducts heads blk.wo.table p.cfg.dim p.cfg.dim)
    hp.shaped.fits
  obtain ⟨z, hz, hisZ⟩ := hx.add_ok hisOut (by rw [length_rowProducts, hxs])
  refine ⟨z, ?_, hisZ⟩
  unfold Causal.attnOutput
  rw [linear_value hp (hp.sized.each blk hmem).wo (hp.layers blk hmem).wo hheads, ok_bind, hout, ok_bind, hz]

theorem feedForward_value (hp : p.IsFloat) (hmem : blk ∈ p.weights.layers) (hx : x.Is [p.cfg.dim] xs)
    (hxs : xs.length = p.cfg.dim) :
    ∃ z, Causal.feedForward p blk x = .ok z ∧ z.Is [p.cfg.dim] (p.net.feedForward blk.block xs) := by
  have hsized := hp.sized.each blk hmem
  have hfloat := hp.layers blk hmem
  obtain ⟨hnorm, hlength⟩ := normalized_value hp hx hxs hsized.rmsFfn
  obtain ⟨gate, hgate⟩ : ∃ gate, gate = rowProducts (p.net.norm blk.rmsFfnWeight xs) blk.w1.table p.cfg.dim p.cfg.hiddenDim :=
    ⟨_, rfl⟩
  obtain ⟨up, hup⟩ : ∃ up, up = rowProducts (p.net.norm blk.rmsFfnWeight xs) blk.w3.table p.cfg.dim p.cfg.hiddenDim :=
    ⟨_, rfl⟩
  have hgateLength : gate.length = p.cfg.hiddenDim := by rw [hgate, length_rowProducts]
  have hupLength : up.length = p.cfg.hiddenDim := by rw [hup, length_rowProducts]
  have hinnerLength : (p.net.gated gate up).length = p.cfg.hiddenDim :=
    (Net.length_gated (hupLength.trans hgateLength.symm)).trans hgateLength
  obtain ⟨down, hdown, hisDown⟩ := vectorTensor_value
    (length_rowProducts (p.net.gated gate up) blk.w2.table p.cfg.hiddenDim p.cfg.dim) hp.shaped.fits
  obtain ⟨z, hz, hisZ⟩ := hx.add_ok hisDown (by rw [length_rowProducts, hxs])
  refine ⟨z, ?_, ?_⟩
  · unfold Causal.feedForward
    rw [hnorm, ok_bind, linear_value hp hsized.w1 hfloat.w1 hlength, ok_bind, linear_value hp hsized.w3 hfloat.w3 hlength,
      ok_bind, ← hgate, ← hup, swiGlu_value hgateLength hupLength, ok_bind,
      linear_value hp hsized.w2 hfloat.w2 hinnerLength, ok_bind, hdown, ok_bind, hz]
  · rw [hgate, hup] at hisZ
    exact hisZ

theorem block_value (hp : p.IsFloat) (hmem : blk ∈ p.weights.layers) (hx : x.Is [p.cfg.dim] xs)
    (hxs : xs.length = p.cfg.dim) {q : List F} {keys values : List (List F)} (hq : q.length = p.cfg.dim)
    (hkeys : Causal.AreRows p keys) (hvalues : Causal.AreRows p values) (hboth : keys.length = values.length) :
    ∃ z, Causal.block p blk x q keys values = .ok z ∧ z.Is [p.cfg.dim] (p.net.feedForward blk.block
      (p.net.attnOutput blk.block xs (p.net.attention canonicalValue q keys values))) := by
  obtain ⟨mid, hmid, hisMid⟩ := attnOutput_value hp hmem hx hxs
    (@Net.length_attention F _ canonicalValue p.net hp.shaped.dim q keys values)
  obtain ⟨z, hz, hisZ⟩ := feedForward_value hp hmem hisMid (Net.length_attnOutput hxs)
  refine ⟨z, ?_, hisZ⟩
  rw [Causal.block_eq, attention_value hp.shaped hq hkeys hvalues hboth, ok_bind, hmid, ok_bind, hz]

end Parts

/-! ### A whole step -/

section Step

variable {p : Pass F} {x : Tensor F} {xs : List F}

/-- The rows of the earlier positions, in every layer. -/
def Pass.IsPast (p : Pass F) (past : Past F) : Prop :=
  ∀ layer < p.cfg.nLayers, Causal.AreRows p (past layer).1 ∧ Causal.AreRows p (past layer).2 ∧
    (past layer).1.length = (past layer).2.length

theorem layerOut_value (hp : p.IsFloat) {blk : QuantLayer F} {layer : Nat} (hget : p.weights.layers[layer]? = some blk)
    {past : Past F} (hpast : p.IsPast past) (hx : x.Is [p.cfg.dim] xs) (hxs : xs.length = p.cfg.dim) :
    ∃ z, Causal.layerOut p past layer x = (.ok z, [(p.net.layerOut canonicalValue p.pos (past layer) blk.block xs).2]) ∧
      z.Is [p.cfg.dim] (p.net.layerOut canonicalValue p.pos (past layer) blk.block xs).1 := by
  have hmem := List.mem_of_getElem? hget
  obtain ⟨hkeys, hvalues, hboth⟩ := hpast layer (hp.lt_nLayers hget)
  have happend : ∀ {rows : List (List F)} {new : List F}, Causal.AreRows p rows → new.length = p.kvDim →
      Causal.AreRows p (rows ++ [new]) := by
    intro rows new hrows hnew key hmem
    rcases List.mem_append.mp hmem with hmem | hmem
    · exact hrows key hmem
    · rw [List.mem_singleton.mp hmem, hnew]
  obtain ⟨z, hz, his⟩ := block_value hp hmem hx hxs (@Net.length_query F _ p.net p.pos blk.block xs)
    (happend hkeys (@Net.length_key F _ p.net p.pos blk.block xs))
    (happend hvalues (@Net.length_value F _ p.net p.pos blk.block xs))
    (by rw [List.length_append, List.length_append, hboth, List.length_singleton, List.length_singleton])
  refine ⟨z, ?_, his⟩
  have hrow : Causal.layerRow p layer x = .ok (blk, p.net.queryKeyValue p.pos blk.block xs) := by
    unfold Causal.layerRow
    rw [index_eq_ok.mpr hget, ok_bind, queryKeyValue_value hp hmem hx hxs]
    rfl
  unfold Causal.layerOut
  rw [hrow]
  dsimp only
  rw [hz]
  rfl

theorem layers_value (hp : p.IsFloat) {past : Past F} (hpast : p.IsPast past) (done blks : List (QuantLayer F))
    (hlayers : p.weights.layers = done ++ blks) (hx : x.Is [p.cfg.dim] xs) (hxs : xs.length = p.cfg.dim) :
    ∃ z, Causal.rows p past blks.length done.length x =
        (.ok z, (p.net.layers canonicalValue p.pos past (blks.map QuantLayer.block) done.length xs).2) ∧
      z.Is [p.cfg.dim] (p.net.layers canonicalValue p.pos past (blks.map QuantLayer.block) done.length xs).1 := by
  induction blks generalizing done x xs with
  | nil => exact ⟨x, rfl, hx⟩
  | cons blk blks ih =>
    have hget : p.weights.layers[done.length]? = some blk := by
      rw [hlayers, List.getElem?_append_right (Nat.le_refl _), Nat.sub_self, List.getElem?_cons_zero]
    have hdone : (done ++ [blk]).length = done.length + 1 := by rw [List.length_append, List.length_singleton]
    obtain ⟨x', hout, hx'⟩ := layerOut_value hp hget hpast hx hxs
    obtain ⟨z, hrest, hz⟩ := ih (done ++ [blk]) (by rw [hlayers, List.append_assoc, List.singleton_append]) hx'
      (Net.length_layerOut p.pos (past done.length) blk.block hxs)
    rw [hdone] at hrest hz
    refine ⟨z, ?_, hz⟩
    rw [List.length_cons, Causal.rows, hout]
    dsimp only
    rw [hrest]
    rfl

theorem embed_value (hp : p.IsFloat) {token : UInt32} (htoken : token.toNat < p.cfg.vocabSize) :
    ∃ z, Causal.embed p token = .ok z ∧ z.Is [p.cfg.dim] (p.net.embed token) := by
  have hunscaled : p.net.embed token = row p.cfg.dim p.weights.tokenEmbeddingTable.table token.toNat :=
    List.map_id _
  obtain ⟨z, hz, his⟩ := vectorTensor_value (Net.length_embed hp.net_sized htoken) hp.shaped.fits
  refine ⟨z, ?_, his⟩
  unfold Causal.embed
  rw [hp.sized.embedding.reads.lookup token.toNat htoken, ok_bind, ← hunscaled]
  exact hz

theorem logits_value (hp : p.IsFloat) (hx : x.Is [p.cfg.dim] xs) (hxs : xs.length = p.cfg.dim) :
    ∃ z, Causal.logits p x = .ok z ∧ z.Is [p.cfg.vocabSize] (p.net.logits xs) := by
  obtain ⟨hnorm, hlength⟩ := normalized_value hp hx hxs hp.sized.rmsFinal
  obtain ⟨z, hz, his⟩ := vectorTensor_value (@Net.length_logits F _ p.net xs) (lt_wordSize hp.lmHead.features.2)
  refine ⟨z, ?_, his⟩
  unfold Causal.logits
  rw [hnorm, ok_bind, linear_value hp hp.lmHead hp.head hlength, ok_bind]
  exact hz

theorem stepRows_value (hp : p.IsFloat) {past : Past F} (hpast : p.IsPast past) {token : UInt32}
    (htoken : token.toNat < p.cfg.vocabSize) :
    ∃ z, Causal.stepRows p past token = (.ok z, (p.net.step canonicalValue p.pos past token).2) ∧
      z.Is [p.cfg.vocabSize] (p.net.step canonicalValue p.pos past token).1 := by
  have hxs := Net.length_embed hp.net_sized htoken
  obtain ⟨x, hembed, hx⟩ := embed_value hp htoken
  obtain ⟨x', hlayers, hx'⟩ := layers_value hp hpast [] p.weights.layers rfl hx hxs
  obtain ⟨z, hlogits, hz⟩ := logits_value hp hx' (Net.length_layers p.pos past p.net.blocks 0 hxs).1
  rw [hp.sized.layers] at hlayers
  refine ⟨z, ?_, hz⟩
  unfold Causal.stepRows
  rw [hembed]
  dsimp only
  rw [List.length_nil] at hlayers
  rw [hlayers, ok_bind]
  exact Prod.ext hlogits rfl

/-- A step of the quantized pass computes its net, and writes the rows of the net. -/
theorem quantized_forward (hp : p.IsFloat) (hpos : p.pos < p.cfg.seqLen) {s : RunState F} (hs : s.Fits p)
    {token : UInt32} (htoken : token.toNat < p.cfg.vocabSize) :
    ∃ z, (p.forward token).eval (s, Observers.none) =
        (.ok z, (s.writeRows p 0 (p.net.step canonicalValue p.pos (s.past p) token).2, Observers.none)) ∧
      z.Is [p.cfg.vocabSize] (p.net.step canonicalValue p.pos (s.past p) token).1 := by
  have hpast : p.IsPast (s.past p) := by
    intro layer hlayer
    refine ⟨Pass.areRows_pastRows hs.keys hlayer (by omega), Pass.areRows_pastRows hs.values hlayer (by omega), ?_⟩
    unfold RunState.past
    rw [Pass.length_pastRows, Pass.length_pastRows]
  obtain ⟨heval, -⟩ := forward_eval hp.shaped hp.quiet hpos hs token
  obtain ⟨z, hrows, hz⟩ := stepRows_value hp hpast htoken
  rw [hrows] at heval
  exact ⟨z, heval, hz⟩

end Step

end VitniTensor
