import VitniTensor.Gpu.MetalTurns

/-!
# Metal and CPU compositions

The Metal backend's copy of a model, and when the composition that a step leaves on the device is
that of the quantized forward pass: the dtypes, the biases and the sizes must be such as the host
takes for granted.
-/

namespace VitniTensor

open Outcome

variable {F : Type}

/-! ### What the backend implements -/

/-- The dtypes with a linear kernel. -/
def GgufTensorType.HasKernel (t : GgufTensorType) : Prop :=
  t = .q4_k ∨ t = .q6_k ∨ t = .q8_0 ∨ t = .q5_0

instance (t : GgufTensorType) : Decidable t.HasKernel :=
  inferInstanceAs (Decidable (_ ∨ _))

/-- The dtypes that the host looks embeddings up in. -/
def GgufTensorType.HasLookup (t : GgufTensorType) : Prop :=
  t.HasKernel ∨ t = .f32 ∨ t = .q4_0

/-- The head of the model: the embedding, when it has none of its own. -/
def QuantizedWeights.head (w : QuantizedWeights F) : QuantTensor :=
  w.wcls.getD w.tokenEmbeddingTable

/-- Every dtype of the model is one that the backend implements. -/
structure QuantizedWeights.Implemented (w : QuantizedWeights F) : Prop where
  layers : ∀ blk ∈ w.layers, ∀ t ∈ blk.matrices, t.dtype.HasKernel
  head : w.head.dtype.HasKernel
  embedding : w.tokenEmbeddingTable.dtype.HasLookup

/-- The biases are all there, none shorter than its row, or there is none. -/
def QuantLayer.BiasesFit (blk : QuantLayer F) (qOut kvDim : Nat) : Prop :=
  (blk.bq = none ∧ blk.bk = none ∧ blk.bv = none) ∨
    ∃ bq bk bv, blk.bq = some bq ∧ blk.bk = some bk ∧ blk.bv = some bv ∧ qOut ≤ bq.length ∧
      kvDim ≤ bk.length ∧ kvDim ≤ bv.length

/-- The first bias brings the others. -/
def QuantLayer.BiasesComplete (blk : QuantLayer F) : Prop :=
  blk.bq.isSome → blk.bk.isSome ∧ blk.bv.isSome

/-- A bias that is there goes with the first one, and is not shorter than its row. -/
def QuantLayer.BiasFits (blk : QuantLayer F) (n : Nat) (b : Option (List F)) : Prop :=
  ∀ bias, b = some bias → blk.bq.isSome ∧ n ≤ bias.length

theorem QuantLayer.biasesFit_iff {blk : QuantLayer F} {qOut kvDim : Nat} :
    blk.BiasesFit qOut kvDim ↔ blk.BiasesComplete ∧ blk.BiasFits qOut blk.bq ∧
      blk.BiasFits kvDim blk.bk ∧ blk.BiasFits kvDim blk.bv := by
  unfold QuantLayer.BiasesFit QuantLayer.BiasesComplete QuantLayer.BiasFits
  cases blk.bq <;> cases blk.bk <;> cases blk.bv <;> simp

/-! ### The sizes of a pass -/

/-- The engine gets through a layer of these sizes: no head is empty, each has a key head, and the pairs of
the interleaved layout end with the query. -/
structure Pass.LayerReached (p : Pass F) : Prop where
  heads : 0 < p.headSize
  groups : 0 < p.kvMul
  pairs : p.weights.ropeNeox = false → p.cfg.dim = p.cfg.nHeads * p.headSize ∧ p.cfg.dim % 2 = 0

/-- The engine gets through its layers: they are all there, and it gets through each. -/
structure Pass.Reached (p : Pass F) : Prop where
  layers : p.cfg.nLayers ≤ p.weights.layers.length
  layer : 0 < p.cfg.nLayers → p.LayerReached

/-- The sizes that a layer's dispatches bind fit the `uint`s of the kernels, the heads fill the input of `wo`,
and the pairs of the interleaved layout do not go across heads. -/
structure Pass.LayerFits (p : Pass F) : Prop where
  dim : p.cfg.dim < 2 ^ 32
  hidden : p.cfg.hiddenDim < 2 ^ 32
  kvDim : p.kvDim < 2 ^ 32
  pos : p.pos < 2 ^ 32
  width : p.cfg.dim = p.cfg.nHeads * p.headSize
  even : p.weights.ropeNeox = false → p.headSize % 2 = 0

/-- All sizes that a step binds fit, and the byte offset of its cache row is a machine word. -/
structure Pass.FitsDevice (p : Pass F) : Prop where
  dim : p.cfg.dim < 2 ^ 32
  vocab : p.cfg.vocabSize < 2 ^ 32
  offset : p.pos * p.kvDim * 4 < wordSize
  layers : 0 < p.cfg.nLayers → p.LayerFits

/-- The number of heads fits when the width does. -/
theorem Pass.Derived.heads_lt {p : Pass F} (h : p.Derived) (hsize : 0 < p.headSize)
    (hdim : p.cfg.dim < 2 ^ 32) : p.cfg.nHeads < 2 ^ 32 :=
  Nat.lt_of_le_of_lt (Nat.le_trans (Nat.le_mul_of_pos_right _ hsize) h.qOut_le) hdim

theorem Pass.Derived.headSize_lt {p : Pass F} (h : p.Derived) (hdim : p.cfg.dim < 2 ^ 32) :
    p.headSize < 2 ^ 32 :=
  Nat.lt_of_le_of_lt (Nat.le_trans (Nat.le_mul_of_pos_left _ h.heads) h.qOut_le) hdim

theorem Pass.Derived.kvMul_lt {p : Pass F} (h : p.Derived) (hheads : p.cfg.nHeads < 2 ^ 32) :
    p.kvMul < 2 ^ 32 := by
  rw [h.kvMul]
  exact Nat.lt_of_le_of_lt (Nat.div_le_self _ _) hheads

namespace MetalForward

open Metal

/-- What the file calls by a number falls back to Q4_K. -/
theorem dtypeKind_other (raw : UInt32) : dtypeKind (GgufTensorType.other raw).debug = 0 := by
  have hne : ∀ s : String, s.toList.head? = some 'Q' → (GgufTensorType.other raw).debug ≠ s := by
    intro s hs heq
    rw [← heq] at hs
    simp [GgufTensorType.debug, String.toList_append] at hs
  unfold dtypeKind
  split
  next heq => exact absurd heq (hne _ rfl)
  next heq => exact absurd heq (hne _ rfl)
  next heq => exact absurd heq (hne _ rfl)
  next => rfl

/-- A dtype with a kernel gets the linear that the engine dispatches to, and no other does. -/
theorem kindOp_eq {t : QuantTensor} {regime : UInt8} :
    kindOp (dtypeKind t.dtype.debug) regime = LinearOp.of t regime ↔ t.dtype.HasKernel := by
  unfold LinearOp.of GgufTensorType.HasKernel
  cases t.dtype with
  | other raw =>
    rw [dtypeKind_other]
    by_cases hregime : regime = 3 <;> simp [kindOp, hregime]
  | q4_k | q6_k =>
    by_cases hregime : regime = 3 <;> simp [kindOp, dtypeKind, GgufTensorType.debug, hregime]
  | f32 | f16 | q4_0 =>
    by_cases hregime : regime = 3 <;> simp [kindOp, dtypeKind, GgufTensorType.debug, hregime]
  | q8_0 | q5_0 => simp [kindOp, dtypeKind, GgufTensorType.debug]

/-! ### The backend's copy of a model -/

/-- What `new` and `set_regime` build for the model, sizes and regime of a pass. -/
def ofPass (p : Pass F) (keyCache valueCache : List Nat) : MetalForward F where
  ropeNeox := p.weights.ropeNeox
  regime := p.regime
  dim := p.cfg.dim
  hidden := p.cfg.hiddenDim
  nLayers := p.cfg.nLayers
  nHeads := p.cfg.nHeads
  kvDim := p.kvDim
  kvMul := p.kvMul
  headSize := p.headSize
  vocab := p.cfg.vocabSize
  rmsEps := p.weights.rmsEps
  ropeTheta := p.weights.ropeTheta
  embedHost := p.weights.tokenEmbeddingTable.bytes
  embedDtype := p.weights.tokenEmbeddingTable.dtype.debug
  wcls := mkw p.lmHead.1 p.cfg.vocabSize p.cfg.dim
  rmsFinal := p.weights.rmsFinalWeight
  layers := p.weights.layers.map
    (layerOf p.cfg.dim p.cfg.hiddenDim (p.cfg.nHeads * p.headSize) p.kvDim)
  keyCache := keyCache
  valueCache := valueCache
  bAtt := p.cfg.nHeads * p.headSize

theorem new_eq {cfg : Config} {w : QuantizedWeights F} {mf : MetalForward F} (h : new cfg w = .ok mf)
    (build : Build) (blake3 : Blake3) (pos : Nat) (regime : UInt8) :
    ∃ p keys values, passOf build blake3 cfg w none pos regime = .ok p ∧ p.Derived ∧ p.cfg = cfg ∧
      p.weights = w ∧ p.pos = pos ∧ mf.setRegime regime = ofPass p keys values := by
  obtain ⟨kvDim, hkvDim, h⟩ := bind_eq_ok.mp h
  obtain ⟨headSize, hheadSize, h⟩ := bind_eq_ok.mp h
  obtain ⟨qOut, hqOut, h⟩ := bind_eq_ok.mp h
  obtain ⟨kvMul, hkvMul, h⟩ := bind_eq_ok.mp h
  obtain ⟨keys, -, h⟩ := bind_eq_ok.mp h
  obtain ⟨values, -, h⟩ := bind_eq_ok.mp h
  obtain ⟨-, -, h⟩ := bind_eq_ok.mp h
  cases h
  obtain ⟨-, rfl⟩ := word_eq_ok.mp hqOut
  have hpass : passOf build blake3 cfg w none pos regime =
      .ok ⟨build, blake3, cfg, w, none, pos, kvDim, kvMul, headSize, regime⟩ := by
    unfold passOf
    rw [hkvDim, ok_bind, hkvMul, ok_bind, hheadSize, ok_bind]
    rfl
  refine ⟨_, keys, values, hpass, (passOf_derived hpass).1, rfl, rfl, rfl, ?_⟩
  unfold setRegime ofPass Pass.lmHead
  cases w.wcls <;> rfl

/-! ### Equal values -/

section Values

variable {p : Pass F} {keys values : List Nat} {x x' : Value F}

theorem linearValue_eq {t : QuantTensor} (ht : t.dtype.HasKernel) {k n : Nat} :
    (ofPass p keys values).linearValue x (mkw t n k) = p.linearValue x' t k n ↔
      x = x' ∧ k < 2 ^ 32 ∧ n < 2 ^ 32 := by
  have hop : kindOp (mkw t n k).kind (ofPass p keys values).regime = LinearOp.of t p.regime :=
    kindOp_eq.mpr ht
  unfold MetalForward.linearValue Pass.linearValue
  rw [hop, Value.linear.injEq]
  simp only [mkw, true_and, u32_eq_self]
  constructor
  · rintro ⟨hk, hn, hx⟩
    exact ⟨hx, hk, hn⟩
  · rintro ⟨hx, hk, hn⟩
    exact ⟨hk, hn, hx⟩

theorem normValue_eq {ws : List F} :
    (ofPass p keys values).normValue ws x = p.normValue ws x' ↔ x = x' ∧ p.cfg.dim < 2 ^ 32 := by
  unfold MetalForward.normValue Pass.normValue
  rw [Value.rms.injEq]
  simp only [ofPass, true_and, u32_eq_self]
  exact And.comm

variable {blk : QuantLayer F}

/-- The linear of a normalized input. -/
theorem normLinear_eq {t : QuantTensor} (ht : t.dtype.HasKernel) {ws : List F} {n : Nat} :
    (ofPass p keys values).linearValue ((ofPass p keys values).normValue ws x) (mkw t n p.cfg.dim) =
        p.linearValue (p.normValue ws x') t p.cfg.dim n ↔
      x = x' ∧ p.cfg.dim < 2 ^ 32 ∧ n < 2 ^ 32 := by
  rw [linearValue_eq ht, normValue_eq, and_assoc, and_self_left]

/-- The entry of a layer in the backend's copy. -/
def copyOf (p : Pass F) (blk : QuantLayer F) : Layer F :=
  layerOf p.cfg.dim p.cfg.hiddenDim (p.cfg.nHeads * p.headSize) p.kvDim blk

/-- A projection and its bias. -/
theorem biased_eq {t : QuantTensor} (ht : t.dtype.HasKernel) {ws : List F} {n : Nat} {b : Option (List F)} :
    biased (copyOf p blk) n b
          ((ofPass p keys values).linearValue ((ofPass p keys values).normValue ws x) (mkw t n p.cfg.dim)) =
        Pass.biasValue n b (p.linearValue (p.normValue ws x') t p.cfg.dim n) ↔
      (x = x' ∧ p.cfg.dim < 2 ^ 32 ∧ n < 2 ^ 32) ∧ blk.BiasFits n b := by
  have hlinear := @normLinear_eq F p keys values x x' t ht ws n
  unfold biased Pass.biasValue QuantLayer.BiasFits copyOf layerOf
  cases b with
  | none => simp [hlinear]
  | some bias =>
    cases hbq : blk.bq with
    | none =>
      -- the engine adds a bias that the backend leaves out
      simp [MetalForward.linearValue]
    | some bq =>
      simp only [Value.bias.injEq, hlinear, true_and, Option.some.injEq, Option.isSome_some,
        forall_eq']
      constructor
      · rintro ⟨hn, hx, hdim, hfits⟩
        rw [u32_of_lt hfits] at hn
        exact ⟨⟨hx, hdim, hfits⟩, by omega⟩
      · rintro ⟨⟨hx, hdim, hfits⟩, hn⟩
        rw [u32_of_lt hfits]
        exact ⟨by omega, hx, hdim, hfits⟩

theorem vValue_eq (hwv : blk.wv.dtype.HasKernel) :
    (ofPass p keys values).vValue (copyOf p blk) x = p.vValue blk x' ↔
      (x = x' ∧ p.cfg.dim < 2 ^ 32 ∧ p.kvDim < 2 ^ 32) ∧ blk.BiasFits p.kvDim blk.bv :=
  biased_eq hwv

variable [F32 F]

theorem qValue_eq (hp : p.Derived) (hl : p.LayerReached) (hwq : blk.wq.dtype.HasKernel) :
    (ofPass p keys values).qValue (givenOf p) (copyOf p blk) x = p.qValue blk x' ↔
      ((x = x' ∧ p.cfg.dim < 2 ^ 32) ∧ blk.BiasFits (p.cfg.nHeads * p.headSize) blk.bq) ∧
        (p.weights.ropeNeox = false → p.headSize % 2 = 0) := by
  have hout := hp.qOut_le
  have hrotated : p.cfg.dim < 2 ^ 32 → ∀ v, (givenOf p).rotated p.weights.ropeNeox (.ofNat p.cfg.nHeads)
      (.ofNat p.headSize) v = .rotate (if p.weights.ropeNeox then p.headTurns p.cfg.nHeads else pairTurns p p.cfg.nHeads) v :=
    fun hdim => rotated_eq (hp.heads_lt hl.heads hdim) (Nat.lt_of_le_of_lt hout hdim) (hp.headSize_lt hdim)
  have hturns : (if p.weights.ropeNeox then p.headTurns p.cfg.nHeads else pairTurns p p.cfg.nHeads) = p.qTurns ↔
      (p.weights.ropeNeox = false → p.headSize % 2 = 0) := by
    unfold Pass.qTurns
    cases hneox : p.weights.ropeNeox with
    | true => simp
    | false =>
      obtain ⟨hdim, hwhole⟩ := hl.pairs hneox
      simpa using pairTurns_query hdim hwhole hp.heads
  unfold MetalForward.qValue Pass.qValue
  constructor
  · intro h
    have hdim : p.cfg.dim < 2 ^ 32 := by
      unfold Given.rotated at h
      split at h
      next => exact ((biased_eq hwq).mp (Value.rotate.inj h).2).1.2.1
      next => cases h
    have h := (hrotated hdim _).symm.trans h
    obtain ⟨hsame, hvalue⟩ := Value.rotate.inj h
    obtain ⟨⟨hx, -, -⟩, hbias⟩ := (biased_eq hwq).mp hvalue
    exact ⟨⟨⟨hx, hdim⟩, hbias⟩, hturns.mp hsame⟩
  · rintro ⟨⟨⟨hx, hdim⟩, hbias⟩, heven⟩
    refine (hrotated hdim _).trans ?_
    rw [hturns.mpr heven]
    exact congrArg _ ((biased_eq hwq).mpr ⟨⟨hx, hdim, Nat.lt_of_le_of_lt hout hdim⟩, hbias⟩)

/-- With heads that fill the width. -/
theorem kValue_eq (hp : p.Derived) (hl : p.LayerReached) (hwidth : p.cfg.dim = p.cfg.nHeads * p.headSize)
    (heven : p.weights.ropeNeox = false → p.headSize % 2 = 0) (hwk : blk.wk.dtype.HasKernel) :
    (ofPass p keys values).kValue (givenOf p) (copyOf p blk) x = p.kValue blk x' ↔
      (x = x' ∧ p.cfg.dim < 2 ^ 32 ∧ p.kvDim < 2 ^ 32) ∧ blk.BiasFits p.kvDim blk.bk := by
  have hkvDim := hp.kvDim_eq hwidth
  have hcount : p.kvDim / p.headSize = p.cfg.nKvHeads := by rw [hkvDim, Nat.mul_div_cancel _ hl.heads]
  have hturns : (if p.weights.ropeNeox then p.headTurns (p.kvDim / p.headSize)
      else pairTurns p (p.kvDim / p.headSize)) = p.kTurns := by
    unfold Pass.kTurns
    cases hneox : p.weights.ropeNeox with
    | true => rfl
    | false =>
      rw [hcount]
      exact pairTurns_key hp hwidth hl.groups (heven hneox)
  have hrotated : p.cfg.dim < 2 ^ 32 → p.kvDim < 2 ^ 32 → ∀ v, (givenOf p).rotated p.weights.ropeNeox
      (.ofNat (p.kvDim / p.headSize)) (.ofNat p.headSize) v = .rotate p.kTurns v := by
    intro hdim hkv v
    have hcells : p.kvDim / p.headSize * p.headSize < 2 ^ 32 := Nat.lt_of_le_of_lt (Nat.div_mul_le_self _ _) hkv
    rw [rotated_eq (Nat.lt_of_le_of_lt (Nat.div_le_self _ _) hkv) hcells (hp.headSize_lt hdim), hturns]
  unfold MetalForward.kValue Pass.kValue
  constructor
  · intro h
    unfold Given.rotated at h
    split at h
    next => exact (biased_eq hwk).mp (Value.rotate.inj h).2
    next => cases h
  · rintro ⟨⟨hx, hdim, hkv⟩, hbias⟩
    exact (hrotated hdim hkv _).trans (congrArg _ ((biased_eq hwk).mpr ⟨⟨hx, hdim, hkv⟩, hbias⟩))

/-- The biases of a layer are those of the engine. -/
def SameBiases (p : Pass F) (blk : QuantLayer F) : Prop :=
  blk.BiasFits (p.cfg.nHeads * p.headSize) blk.bq ∧ blk.BiasFits p.kvDim blk.bk ∧
    blk.BiasFits p.kvDim blk.bv

/-- What attention needs of a layer. -/
def AttentionFits (p : Pass F) (blk : QuantLayer F) : Prop :=
  (p.cfg.dim < 2 ^ 32 ∧ p.kvDim < 2 ^ 32 ∧ p.pos < 2 ^ 32) ∧
    (p.cfg.dim = p.cfg.nHeads * p.headSize ∧ (p.weights.ropeNeox = false → p.headSize % 2 = 0)) ∧ SameBiases p blk

theorem attendValue_eq (hp : p.Derived) (hl : p.LayerReached) (hwq : blk.wq.dtype.HasKernel)
    (hwk : blk.wk.dtype.HasKernel) (hwv : blk.wv.dtype.HasKernel) {layer : Nat} :
    (ofPass p keys values).attendValue (givenOf p) p.pos (p.pos * p.kvDim * 4) layer (copyOf p blk) x =
        p.attendValue layer blk x' ↔
      x = x' ∧ AttentionFits p blk := by
  unfold MetalForward.attendValue Pass.attendValue rowValue AttentionFits SameBiases
  have hq := @qValue_eq F p keys values x x' blk _ hp hl hwq
  have hv := @vValue_eq F p keys values x x' blk hwv
  rw [Value.attention.injEq]
  change p.cfg.nHeads * p.headSize = _ ∧ _ ∧ u32 p.cfg.nHeads = _ ∧ u32 p.headSize = _ ∧ u32 p.kvDim = _ ∧
    u32 p.kvMul = _ ∧ u32 p.pos = _ ∧ _ ∧ _ ∧ _ ↔ _
  constructor
  · rintro ⟨hwidth, -, -, -, hkv, -, hpos, hqv, hkvv, hvv⟩
    -- both numbers fit, so the kernel finds the row
    change (if u32 p.pos * u32 p.kvDim * 4 = _ then _ else _) = _ at hkvv hvv
    rw [hkv, hpos, if_pos rfl] at hkvv hvv
    obtain ⟨⟨⟨hx, hdim⟩, hbq⟩, heven⟩ := hq.mp hqv
    obtain ⟨⟨-, -, hkvDim⟩, hbk⟩ := (kValue_eq hp hl hwidth.symm heven hwk).mp hkvv
    exact ⟨hx, ⟨hdim, hkvDim, u32_eq_self.mp hpos⟩, ⟨hwidth.symm, heven⟩, hbq, hbk, (hv.mp hvv).2⟩
  · rintro ⟨hx, ⟨hdim, hkv, hpos⟩, ⟨hwidth, heven⟩, hbq, hbk, hbv⟩
    have hheads := hp.heads_lt hl.heads hdim
    have hfound : u32 p.pos * u32 p.kvDim * 4 = p.pos * p.kvDim * 4 := by
      rw [u32_of_lt hpos, u32_of_lt hkv]
    refine ⟨hwidth.symm, rfl, u32_of_lt hheads, u32_of_lt (hp.headSize_lt hdim), u32_of_lt hkv,
      u32_of_lt (hp.kvMul_lt hheads), u32_of_lt hpos, hq.mpr ⟨⟨⟨hx, hdim⟩, hbq⟩, heven⟩, ?_, ?_⟩
    · exact (if_pos hfound).trans ((kValue_eq hp hl hwidth heven hwk).mpr ⟨⟨hx, hdim, hkv⟩, hbk⟩)
    · exact (if_pos hfound).trans (hv.mpr ⟨⟨hx, hdim, hkv⟩, hbv⟩)

/-- Every matrix of the layer has a kernel. -/
def HasKernels (blk : QuantLayer F) : Prop :=
  ∀ t ∈ blk.matrices, t.dtype.HasKernel

/-- **One layer.** It is the engine's exactly if its sizes fit and its biases are the engine's. -/
theorem layerValue_eq (hp : p.Derived) (hl : p.LayerReached) (hblk : HasKernels blk) {layer : Nat} :
    (ofPass p keys values).layerValue (givenOf p) p.pos (p.pos * p.kvDim * 4) layer (copyOf p blk) x =
        p.layerValue layer blk x' ↔
      x = x' ∧ p.LayerFits ∧ SameBiases p blk := by
  obtain ⟨hwq, hwk, hwv, hwo, hw1, hw2, hw3⟩ : blk.wq.dtype.HasKernel ∧ blk.wk.dtype.HasKernel ∧
      blk.wv.dtype.HasKernel ∧ blk.wo.dtype.HasKernel ∧ blk.w1.dtype.HasKernel ∧ blk.w2.dtype.HasKernel ∧
      blk.w3.dtype.HasKernel := by
    simpa [HasKernels, QuantLayer.matrices] using hblk
  have hmid : (ofPass p keys values).midValue (givenOf p) p.pos (p.pos * p.kvDim * 4) layer (copyOf p blk) x =
        p.midValue layer blk x' ↔
      x = x' ∧ AttentionFits p blk := by
    unfold MetalForward.midValue Pass.midValue
    rw [Value.add.injEq]
    refine Iff.trans (and_congr_right' (linearValue_eq hwo)) ?_
    rw [attendValue_eq hp hl hwq hwk hwv]
    constructor
    · rintro ⟨-, hrest, -⟩
      exact hrest
    · rintro ⟨hx, hfits⟩
      exact ⟨hx, ⟨hx, hfits⟩, hfits.1.1, hfits.1.1⟩
  have hinner : ∀ {m m' : Value F}, (ofPass p keys values).innerValue (copyOf p blk) m = p.innerValue blk m' ↔
      m = m' ∧ p.cfg.dim < 2 ^ 32 ∧ p.cfg.hiddenDim < 2 ^ 32 := by
    intro m m'
    unfold MetalForward.innerValue Pass.innerValue
    rw [Value.siluMul.injEq]
    refine Iff.trans (and_congr u32_eq_self (and_congr (normLinear_eq hw1) (normLinear_eq hw3))) ?_
    constructor
    · rintro ⟨-, hgate, -⟩
      exact hgate
    · rintro ⟨hm, hdim, hhidden⟩
      exact ⟨hhidden, ⟨hm, hdim, hhidden⟩, hm, hdim, hhidden⟩
  unfold MetalForward.layerValue Pass.layerValue
  dsimp only
  rw [Value.add.injEq]
  refine Iff.trans (and_congr_right' (linearValue_eq hw2)) ?_
  rw [hinner, hmid]
  constructor
  · rintro ⟨⟨hx, ⟨hdim, hkv, hpos⟩, ⟨hwidth, heven⟩, hbiases⟩, -, hhidden, -⟩
    exact ⟨hx, ⟨hdim, hhidden, hkv, hpos, hwidth, heven⟩, hbiases⟩
  · rintro ⟨hx, hfits, hbiases⟩
    have hattention : AttentionFits p blk :=
      ⟨⟨hfits.dim, hfits.kvDim, hfits.pos⟩, ⟨hfits.width, hfits.even⟩, hbiases⟩
    have hm := And.intro hx hattention
    exact ⟨hm, ⟨hm, hfits.dim, hfits.hidden⟩, hfits.hidden, hfits.dim⟩

/-- The layers from `layer` on: the comparison goes back from the last one. -/
theorem layersValue_eq (hp : p.Derived) {blks : List (QuantLayer F)} (hl : blks = [] ∨ p.LayerReached)
    (hblks : ∀ blk ∈ blks, HasKernels blk) {layer : Nat} :
    ((ofPass p keys values).layersValue (givenOf p) p.pos (p.pos * p.kvDim * 4) layer (blks.map (copyOf p)) x).1 =
        (p.layersValue layer blks x').1 ↔
      x = x' ∧ ∀ blk ∈ blks, p.LayerFits ∧ SameBiases p blk := by
  induction blks generalizing layer x x' with
  | nil => simp [MetalForward.layersValue, Pass.layersValue]
  | cons blk blks ih =>
    have hreached : p.LayerReached := hl.resolve_left (List.cons_ne_nil _ _)
    rw [List.map_cons, MetalForward.layersValue, Pass.layersValue]
    dsimp only
    rw [ih (.inr hreached) fun b hb => hblks b (List.mem_cons_of_mem _ hb),
      layerValue_eq hp hreached (hblks blk List.mem_cons_self), List.forall_mem_cons, and_assoc]

/-- Then the rows are the engine's, too. -/
theorem layersRows_eq (hp : p.Derived) {blks : List (QuantLayer F)} (hl : blks = [] ∨ p.LayerReached)
    (hblks : ∀ blk ∈ blks, HasKernels blk) (hfits : ∀ blk ∈ blks, p.LayerFits ∧ SameBiases p blk)
    {layer : Nat} :
    ((ofPass p keys values).layersValue (givenOf p) p.pos (p.pos * p.kvDim * 4) layer (blks.map (copyOf p)) x).2 =
      (p.layersValue layer blks x).2 := by
  induction blks generalizing layer x with
  | nil => rfl
  | cons blk blks ih =>
    have hreached : p.LayerReached := hl.resolve_left (List.cons_ne_nil _ _)
    have hblk := hblks blk List.mem_cons_self
    obtain ⟨hlayer, hbq, hbk, hbv⟩ := hfits blk List.mem_cons_self
    have hnext := (@layerValue_eq F p keys values x x blk _ hp hreached hblk layer).mpr ⟨rfl, hlayer, hbq, hbk, hbv⟩
    have hkey := (@kValue_eq F p keys values x x blk _ hp hreached hlayer.width hlayer.even
      (hblk blk.wk (by simp [QuantLayer.matrices]))).mpr
      ⟨⟨rfl, hlayer.dim, hlayer.kvDim⟩, hbk⟩
    have hvalue := (@vValue_eq F p keys values x x blk (hblk blk.wv (by simp [QuantLayer.matrices]))).mpr
      ⟨⟨rfl, hlayer.dim, hlayer.kvDim⟩, hbv⟩
    rw [List.map_cons, MetalForward.layersValue, Pass.layersValue]
    dsimp only
    rw [hnext, hkey, hvalue, ih (.inr hreached) (fun b hb => hblks b (List.mem_cons_of_mem _ hb))
      (fun b hb => hfits b (List.mem_cons_of_mem _ hb))]

omit [F32 F] in
theorem logitsValue_eq (hhead : p.lmHead.1.dtype.HasKernel) :
    (ofPass p keys values).logitsValue x = p.logitsValue x' ↔
      x = x' ∧ p.cfg.dim < 2 ^ 32 ∧ p.cfg.vocabSize < 2 ^ 32 :=
  normLinear_eq hhead

end Values

end MetalForward

end VitniTensor
