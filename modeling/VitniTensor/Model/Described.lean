import VitniTensor.Gguf.Loaded
import VitniTensor.Model.NetQuantized

/-!
# Files that describe their model

The loaders do not compare the shapes of a file with its configuration. Where a file says the same in both places, the
weights that are read from it have the sizes that the passes ask for.
-/

namespace VitniTensor

open Outcome Exec QuantizedWeights

variable {F : Type} [F32 F]

/-! ### Shapes -/

/-- A matrix of the file: the fastest dim comes first, and every row is whole blocks. What its linear allocates fits
in memory. -/
structure GgufTensor.IsMatrix (aligned : String → Bool) (inFeat outFeat : Nat) (t : GgufTensor) : Prop where
  shape : t.shape.map UInt64.toNat = [inFeat, outFeat]
  rows : ∃ per size, t.dtype.blockOf = some (per, size) ∧ inFeat % per = 0
  aligned : t.dtype = .f32 → aligned t.name = true
  features : inFeat * 4 < 2 ^ 63 ∧ outFeat * 4 < 2 ^ 63
  decodes : t.dtype = .q4_0 → outFeat * inFeat * 4 < 2 ^ 63

/-- The parts of a layer, with their features. -/
def layerMatrices (cfg : Config) (headSize : Nat) : List (String × Nat × Nat) :=
  [("attn_q.weight", cfg.dim, cfg.nHeads * headSize), ("attn_k.weight", cfg.dim, cfg.nKvHeads * headSize),
    ("attn_v.weight", cfg.dim, cfg.nKvHeads * headSize), ("attn_output.weight", cfg.dim, cfg.dim),
    ("ffn_gate.weight", cfg.dim, cfg.hiddenDim), ("ffn_down.weight", cfg.hiddenDim, cfg.dim),
    ("ffn_up.weight", cfg.dim, cfg.hiddenDim)]

/-- The tensor of a name, where the file has one. -/
def GgufFile.Has (g : GgufFile) (name : String) (P : GgufTensor → Prop) : Prop :=
  ∀ t, g.tensor name = .ok (some t) → P t

/-- The shapes of the tensors are those of the configuration. -/
structure GgufFile.Describes (g : GgufFile) (aligned : String → Bool) (cfg : Config) (headSize : Nat) : Prop where
  embedding : g.Has "token_embd.weight" (GgufTensor.IsMatrix aligned cfg.dim cfg.vocabSize)
  output : g.Has "output.weight" (GgufTensor.IsMatrix aligned cfg.dim cfg.vocabSize)
  outputNorm : g.Has "output_norm.weight" fun t => t.shape.map UInt64.toNat = [cfg.dim]
  matrices : ∀ l < cfg.nLayers, ∀ e ∈ layerMatrices cfg headSize,
    g.Has (layerKey l e.1) (GgufTensor.IsMatrix aligned e.2.1 e.2.2)
  norms : ∀ l < cfg.nLayers, ∀ part ∈ ["attn_norm.weight", "ffn_norm.weight"],
    g.Has (layerKey l part) fun t => t.shape.map UInt64.toNat = [cfg.dim]

/-! ### Bytes -/

namespace GgufFile

variable {blob : List UInt8} {g : GgufFile}

theorem mem_of_tensor {name : String} {t : GgufTensor} (h : g.tensor name = .ok (some t)) : t ∈ g.tensors := by
  unfold tensor at h
  split at h
  next i hi =>
    obtain ⟨t', hindex, h⟩ := bind_eq_ok.mp h
    cases h
    exact List.mem_of_getElem? (index_eq_ok.mp hindex)
  next => cases h

/-- Every tensor is a range of the file, of the size of its shape. -/
theorem loaded_bytes (hparsed : parsed blob = .ok g) {t : GgufTensor} (hmem : t ∈ g.tensors) :
    t.bytes.length ≤ blob.length ∧ ∃ per size, t.dtype.block = some (per, size) ∧
      t.bytes.length = numelOf t.shape / per * size := by
  obtain ⟨infos, c, base, hloaded⟩ := parsed_ok hparsed
  have hrange : ∀ {infos : List TensorInfo} {tensors : List GgufTensor},
      List.Forall₂ (GgufTensor.IsLoaded blob base) infos tensors → ∀ t ∈ tensors, ∃ info, t.IsLoaded blob base info := by
    intro infos tensors hall
    induction hall with
    | nil => exact fun t hmem => absurd hmem List.not_mem_nil
    | cons first rest ih => exact List.forall_mem_cons.mpr ⟨⟨_, first⟩, ih⟩
  obtain ⟨info, ht⟩ := hrange hloaded.tensors t hmem
  obtain ⟨per, size, hblock, -, hinside, hbytes⟩ := ht.bytes
  have hlength := congrArg List.length hbytes
  rw [List.length_take, List.length_drop] at hlength
  exact ⟨by omega, per, size, hblock, by omega⟩

end GgufFile

theorem GgufTensorType.block_of_blockOf {dtype : GgufTensorType} {b : Nat × Nat} (h : dtype.blockOf = some b) :
    dtype.block = some b := by
  cases dtype with
  | f16 | other raw => cases h
  | _ => exact h

section Described

variable {blob : List UInt8} {g : GgufFile} {aligned : String → Bool} {cfg : Config} {headSize : Nat}

/-- A matrix of the file holds its rows. -/
theorem GgufTensor.IsMatrix.holds (hparsed : GgufFile.parsed blob = .ok g) (hmemory : blob.length < 2 ^ 63)
    {t : GgufTensor} (hmem : t ∈ g.tensors) {inFeat outFeat : Nat} (ht : t.IsMatrix aligned inFeat outFeat) :
    (quantTensor aligned t).Holds inFeat outFeat := by
  obtain ⟨hshort, per, size, hblock, hlength⟩ := GgufFile.loaded_bytes hparsed hmem
  obtain ⟨per', size', hblockOf, hwhole⟩ := ht.rows
  obtain ⟨rfl, rfl⟩ := Prod.mk.inj (Option.some.inj (hblock.symm.trans (GgufTensorType.block_of_blockOf hblockOf)))
  have hnumel : numelOf t.shape = inFeat * outFeat := by
    unfold numelOf
    rw [ht.shape]
    simp
  refine ⟨⟨⟨per, size, hblockOf, hwhole, ?_⟩, Nat.lt_of_le_of_lt hshort hmemory, ht.aligned, ht.features⟩, ht.decodes⟩
  calc t.bytes.length = inFeat * outFeat / per * size := by rw [hlength, hnumel]
    _ = outFeat * (inFeat / per * size) := by
      rw [Nat.mul_div_right_comm (Nat.dvd_of_mod_eq_zero hwhole), Nat.mul_comm (inFeat / per), Nat.mul_assoc]

theorem getTensor_eq_ok {name : String} {t : GgufTensor} (h : getTensor g name = .ok t) :
    g.tensor name = .ok (some t) := by
  obtain ⟨t', htensor, h⟩ := bind_eq_ok.mp h
  rw [htensor, okOr_eq_ok.mp h]

/-! ### What the loader reads -/

/-- The matrix of a name. -/
def ReadsMatrix (g : GgufFile) (aligned : String → Bool) (name : String) (m : QuantTensor) : Prop :=
  ∃ t, g.tensor name = .ok (some t) ∧ m = quantTensor aligned t

theorem ReadsMatrix.holds (hparsed : GgufFile.parsed blob = .ok g) (hmemory : blob.length < 2 ^ 63) {name : String}
    {inFeat outFeat : Nat} (hhas : g.Has name (GgufTensor.IsMatrix aligned inFeat outFeat)) {m : QuantTensor}
    (h : ReadsMatrix g aligned name m) : m.Holds inFeat outFeat := by
  obtain ⟨t, htensor, rfl⟩ := h
  exact (hhas t htensor).holds hparsed hmemory (GgufFile.mem_of_tensor htensor)

theorem ReadsMatrix.dtype {name : String} {P : GgufTensorType → Prop} (hhas : g.Has name fun t => P t.dtype)
    {m : QuantTensor} (h : ReadsMatrix g aligned name m) : P m.dtype := by
  obtain ⟨t, htensor, rfl⟩ := h
  exact hhas t htensor

/-- Which tensors a layer is. -/
structure ReadsLayer (g : GgufFile) (aligned : String → Bool) (l : Nat) (blk : QuantLayer F) : Prop where
  rmsAtt : readF32Tensor aligned g (layerKey l "attn_norm.weight") = .ok blk.rmsAttWeight
  wq : ReadsMatrix g aligned (layerKey l "attn_q.weight") blk.wq
  wk : ReadsMatrix g aligned (layerKey l "attn_k.weight") blk.wk
  wv : ReadsMatrix g aligned (layerKey l "attn_v.weight") blk.wv
  wo : ReadsMatrix g aligned (layerKey l "attn_output.weight") blk.wo
  rmsFfn : readF32Tensor aligned g (layerKey l "ffn_norm.weight") = .ok blk.rmsFfnWeight
  w1 : ReadsMatrix g aligned (layerKey l "ffn_gate.weight") blk.w1
  w2 : ReadsMatrix g aligned (layerKey l "ffn_down.weight") blk.w2
  w3 : ReadsMatrix g aligned (layerKey l "ffn_up.weight") blk.w3
  bq : readF32TensorOpt aligned g (layerKey l "attn_q.bias") = .ok blk.bq
  bk : readF32TensorOpt aligned g (layerKey l "attn_k.bias") = .ok blk.bk
  bv : readF32TensorOpt aligned g (layerKey l "attn_v.bias") = .ok blk.bv

theorem readsLayer_of_readLayer {l : Nat} {blk : QuantLayer F} (h : readLayer aligned g l = .ok blk) :
    ReadsLayer g aligned l blk := by
  have hmatrix : ∀ {name : String} {m : QuantTensor}, (do
      let t ← getTensor g name
      pure (quantTensor aligned t) : Res QuantTensor) = .ok m → ReadsMatrix g aligned name m := by
    intro name m hm
    obtain ⟨t, hget, hm⟩ := bind_eq_ok.mp hm
    cases hm
    exact ⟨t, getTensor_eq_ok hget, rfl⟩
  obtain ⟨rmsAtt, hrmsAtt, h⟩ := bind_eq_ok.mp h
  obtain ⟨wq, hwq, h⟩ := bind_eq_ok.mp h
  obtain ⟨wk, hwk, h⟩ := bind_eq_ok.mp h
  obtain ⟨wv, hwv, h⟩ := bind_eq_ok.mp h
  obtain ⟨wo, hwo, h⟩ := bind_eq_ok.mp h
  obtain ⟨rmsFfn, hrmsFfn, h⟩ := bind_eq_ok.mp h
  obtain ⟨w1, hw1, h⟩ := bind_eq_ok.mp h
  obtain ⟨w2, hw2, h⟩ := bind_eq_ok.mp h
  obtain ⟨w3, hw3, h⟩ := bind_eq_ok.mp h
  obtain ⟨bq, hbq, h⟩ := bind_eq_ok.mp h
  obtain ⟨bk, hbk, h⟩ := bind_eq_ok.mp h
  obtain ⟨bv, hbv, h⟩ := bind_eq_ok.mp h
  cases h
  exact ⟨hrmsAtt, hmatrix hwq, hmatrix hwk, hmatrix hwv, hmatrix hwo, hrmsFfn, hmatrix hw1, hmatrix hw2, hmatrix hw3,
    hbq, hbk, hbv⟩

/-- Which tensors the weights are. -/
structure ReadsWeights (g : GgufFile) (aligned : String → Bool) (cfg : Config) (w : QuantizedWeights F) : Prop where
  embedding : ReadsMatrix g aligned "token_embd.weight" w.tokenEmbeddingTable
  rmsFinal : readF32Tensor aligned g "output_norm.weight" = .ok w.rmsFinalWeight
  output : ∀ m, w.wcls = some m → ReadsMatrix g aligned "output.weight" m
  count : w.layers.length = cfg.nLayers
  layers : ∀ (l : Nat) blk, w.layers[l]? = some blk → ReadsLayer g aligned l blk
  neox : ∃ arch, unwrapOr (g.metadataStr "general.architecture") "llama" = .ok arch ∧ w.ropeNeox = (arch == "qwen2")

theorem readsWeights_of_fromGguf {w : QuantizedWeights F} (h : fromGguf aligned g cfg = .ok w) :
    ReadsWeights g aligned cfg w := by
  obtain ⟨embedding, hembedding, h⟩ := bind_eq_ok.mp h
  obtain ⟨rmsFinal, hrmsFinal, h⟩ := bind_eq_ok.mp h
  obtain ⟨output, houtput, h⟩ := bind_eq_ok.mp h
  split at h
  next => cases h
  next =>
    obtain ⟨arch, harch, h⟩ := bind_eq_ok.mp h
    obtain ⟨-, -, h⟩ := bind_eq_ok.mp h
    obtain ⟨layers, hlayers, h⟩ := bind_eq_ok.mp h
    cases h
    obtain ⟨hcount, heach⟩ := collectFrom_eq_ok hlayers
    refine ⟨⟨embedding, getTensor_eq_ok hembedding, rfl⟩, hrmsFinal, fun m hm => ?_, hcount, fun l blk hl => ?_,
      arch, harch, rfl⟩
    · obtain ⟨t, rfl, rfl⟩ := Option.map_eq_some_iff.mp hm
      exact ⟨t, houtput, rfl⟩
    · have hread := heach l blk hl
      rw [Nat.zero_add] at hread
      exact readsLayer_of_readLayer hread

/-! ### Sizes -/

/-- A norm of the file has a weight for every feature. -/
theorem length_of_readF32Tensor (hparsed : GgufFile.parsed blob = .ok g) {name : String} {n : Nat}
    (hhas : g.Has name fun t => t.shape.map UInt64.toNat = [n]) {ws : List F}
    (h : readF32Tensor aligned g name = .ok ws) : ws.length = n := by
  obtain ⟨t, hget, h⟩ := bind_eq_ok.mp h
  have htensor := getTensor_eq_ok hget
  obtain ⟨-, per, size, hblock, hlength⟩ := GgufFile.loaded_bytes hparsed (GgufFile.mem_of_tensor htensor)
  split at h
  next => cases h
  next hdtype =>
    rw [not_not.mp hdtype] at hblock
    obtain ⟨rfl, rfl⟩ := Prod.mk.inj (Option.some.inj hblock)
    have hnumel : numelOf t.shape = n := by
      unfold numelOf
      rw [hhas t htensor]
      simp
    rw [f32View_eq_ok h, hlength, hnumel, Nat.div_one, Nat.mul_div_cancel _ (by decide)]

theorem ReadsLayer.sized (hparsed : GgufFile.parsed blob = .ok g) (hmemory : blob.length < 2 ^ 63)
    (hg : g.Describes aligned cfg headSize) {l : Nat} (hl : l < cfg.nLayers) {blk : QuantLayer F}
    (h : ReadsLayer g aligned l blk) : blk.Sized cfg headSize := by
  have hmatrix : ∀ {e : String × Nat × Nat}, e ∈ layerMatrices cfg headSize → ∀ {m : QuantTensor},
      ReadsMatrix g aligned (layerKey l e.1) m → m.Holds e.2.1 e.2.2 :=
    fun he _ hm => hm.holds hparsed hmemory (hg.matrices l hl _ he)
  exact {
    rmsAtt := length_of_readF32Tensor hparsed (hg.norms l hl _ List.mem_cons_self) h.rmsAtt
    rmsFfn := length_of_readF32Tensor hparsed (hg.norms l hl _ (List.mem_cons_of_mem _ List.mem_cons_self)) h.rmsFfn
    wq := hmatrix (e := ("attn_q.weight", _, _)) (by simp [layerMatrices]) h.wq
    wk := hmatrix (e := ("attn_k.weight", _, _)) (by simp [layerMatrices]) h.wk
    wv := hmatrix (e := ("attn_v.weight", _, _)) (by simp [layerMatrices]) h.wv
    wo := hmatrix (e := ("attn_output.weight", _, _)) (by simp [layerMatrices]) h.wo
    w1 := hmatrix (e := ("ffn_gate.weight", _, _)) (by simp [layerMatrices]) h.w1
    w2 := hmatrix (e := ("ffn_down.weight", _, _)) (by simp [layerMatrices]) h.w2
    w3 := hmatrix (e := ("ffn_up.weight", _, _)) (by simp [layerMatrices]) h.w3 }

/-- The weights that are read from a file which describes its model. -/
theorem ReadsWeights.sized (hparsed : GgufFile.parsed blob = .ok g) (hmemory : blob.length < 2 ^ 63)
    (hg : g.Describes aligned cfg headSize) {w : QuantizedWeights F} (h : ReadsWeights g aligned cfg w) :
    w.Sized cfg headSize := by
  refine ⟨h.count, fun blk hmem => ?_, length_of_readF32Tensor hparsed hg.outputNorm h.rmsFinal,
    (h.embedding.holds hparsed hmemory hg.embedding).toOfSize, fun _ => h.embedding.holds hparsed hmemory hg.embedding,
    fun m hm => (h.output m hm).holds hparsed hmemory hg.output⟩
  obtain ⟨l, hl⟩ := List.getElem?_of_mem hmem
  exact (h.layers l blk hl).sized hparsed hmemory hg (h.count ▸ (List.getElem?_eq_some_iff.mp hl).1)

/-! ### Float files -/

def matrixParts : List String :=
  ["attn_q.weight", "attn_k.weight", "attn_v.weight", "attn_output.weight", "ffn_gate.weight", "ffn_down.weight",
    "ffn_up.weight"]

/-- Neither integer linears nor biases, in the layout of Llama. -/
structure GgufFile.IsFloat (g : GgufFile) (cfg : Config) : Prop where
  embedding : g.Has "token_embd.weight" (·.dtype ≠ .q6_k)
  output : g.Has "output.weight" (·.dtype ≠ .q6_k)
  matrices : ∀ l < cfg.nLayers, ∀ part ∈ matrixParts, g.Has (layerKey l part) (·.dtype ≠ .q6_k)
  biases : ∀ l < cfg.nLayers, ∀ part ∈ ["attn_q.bias", "attn_k.bias", "attn_v.bias"], g.tensor (layerKey l part) = .ok none
  arch : ∀ arch, g.metadataStr "general.architecture" = .ok arch → arch ≠ "qwen2"

theorem readF32TensorOpt_none {name : String} (hnone : g.tensor name = .ok none) {b : Option (List F)}
    (h : readF32TensorOpt aligned g name = .ok b) : b = none := by
  unfold readF32TensorOpt at h
  rw [hnone] at h
  cases h
  rfl

theorem ReadsLayer.isFloat (hg : g.IsFloat cfg) {l : Nat} (hl : l < cfg.nLayers) {blk : QuantLayer F}
    (h : ReadsLayer g aligned l blk) : blk.IsFloat := by
  have hmatrix : ∀ {part : String}, part ∈ matrixParts → ∀ {m : QuantTensor},
      ReadsMatrix g aligned (layerKey l part) m → m.dtype ≠ .q6_k :=
    fun hpart _ hm => hm.dtype (P := (· ≠ .q6_k)) (hg.matrices l hl _ hpart)
  have hbias := hg.biases l hl
  simp only [List.forall_mem_cons] at hbias
  exact {
    wq := hmatrix (by simp [matrixParts]) h.wq
    wk := hmatrix (by simp [matrixParts]) h.wk
    wv := hmatrix (by simp [matrixParts]) h.wv
    wo := hmatrix (by simp [matrixParts]) h.wo
    w1 := hmatrix (by simp [matrixParts]) h.w1
    w2 := hmatrix (by simp [matrixParts]) h.w2
    w3 := hmatrix (by simp [matrixParts]) h.w3
    noBias := ⟨readF32TensorOpt_none hbias.1 h.bq, readF32TensorOpt_none hbias.2.1 h.bk,
      readF32TensorOpt_none hbias.2.2.1 h.bv⟩ }

/-- No layer is turned as in NeoX. -/
theorem ReadsWeights.neox_false (hg : g.IsFloat cfg) {w : QuantizedWeights F}
    (h : ReadsWeights g aligned cfg w) : w.ropeNeox = false := by
  obtain ⟨arch, harch, hneox⟩ := h.neox
  rw [hneox, beq_eq_false_iff_ne]
  unfold unwrapOr at harch
  split at harch
  next =>
    cases harch
    decide
  next => exact hg.arch arch harch

end Described

end VitniTensor
