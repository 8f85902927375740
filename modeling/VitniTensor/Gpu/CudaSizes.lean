import VitniTensor.Gpu.CudaRuns

/-!
# Sizes that are not negative

The host casts sizes to `int`, and launches over `unsigned`s and offsets in `size_t`. For sizes below
`2^31` all of these are the sizes themselves, and a run stays inside exactly if its last row does.
-/

namespace VitniTensor

open Outcome Subscript Gpu Exec

variable {F : Type}

namespace Cuda

/-- An `int` that holds a size. -/
def Size (i : Int) : Prop :=
  0 ≤ i ∧ i < 2 ^ 31

theorem Size.unsigned {i : Int} (h : Size i) : (unsigned i).toNat = i.toNat := by
  obtain ⟨hlow, hhigh⟩ := h
  unfold Cuda.unsigned
  rw [UInt32.toNat_ofNat', Int.emod_eq_of_lt hlow (by omega), Nat.mod_eq_of_lt (by omega)]

theorem Size.sizeT {i : Int} (h : Size i) : sizeT i = i.toNat := by
  obtain ⟨hlow, hhigh⟩ := h
  unfold Cuda.sizeT
  rw [Int.emod_eq_of_lt hlow (by omega)]

theorem Size.rows {i : Int} (h : Size i) : rows i = i.toNat := by
  unfold Cuda.rows
  rw [h.unsigned]
  split <;> omega

/-- The cells that the heads read of rows of `width` cells, up to row `pos`. -/
theorem reads_iff {kvCells pos width nHeads kvMul headSize : Nat} (hheads : 0 < nHeads) (hmul : 0 < kvMul)
    (hsize : 0 < headSize) (hrow : pos * width ≤ kvCells) :
    (∀ h < nHeads, ∀ t < pos + 1, ∀ dd < headSize, (t * width + h / kvMul * headSize + dd) % 2 ^ 32 < kvCells) ↔
      2 ^ 32 ≤ kvCells ∨ pos * width + ((nHeads - 1) / kvMul + 1) * headSize ≤ kvCells := by
  constructor
  · intro h
    by_contra hpast
    rw [not_or, Nat.not_le, Nat.not_le] at hpast
    -- the first cell past the end is one of the last row's
    have hlast := Nat.div_add_mod (kvCells - pos * width) headSize
    rw [Nat.mul_comm headSize] at hlast
    have hgroup : (kvCells - pos * width) / headSize ≤ (nHeads - 1) / kvMul := by
      apply Nat.le_of_lt_succ
      rw [Nat.div_lt_iff_lt_mul hsize, Nat.succ_eq_add_one]
      omega
    have hhead : (kvCells - pos * width) / headSize * kvMul ≤ nHeads - 1 :=
      Nat.le_trans (Nat.mul_le_mul_right kvMul hgroup) (Nat.div_mul_le_self _ _)
    have hcell := h _ (Nat.lt_of_le_of_lt hhead (by omega)) pos (Nat.lt_succ_self pos) _
      (Nat.mod_lt (kvCells - pos * width) hsize)
    rw [Nat.mul_div_cancel _ hmul, Nat.add_assoc, hlast, Nat.add_sub_cancel' hrow,
      Nat.mod_eq_of_lt hpast.1] at hcell
    exact Nat.lt_irrefl _ hcell
  · rintro hbound h hh t ht dd hdd
    rcases hbound with hlarge | hlast
    · exact Nat.lt_of_lt_of_le (Nat.mod_lt _ (by decide)) hlarge
    · have hrows : t * width ≤ pos * width := Nat.mul_le_mul_right width (Nat.le_of_lt_succ ht)
      have hgroup : h / kvMul ≤ (nHeads - 1) / kvMul := Nat.div_le_div_right (by omega)
      have hcells := Nat.mul_le_mul_right headSize hgroup
      rw [Nat.add_mul, Nat.one_mul] at hlast
      exact Nat.lt_of_le_of_lt (Nat.mod_le _ _) (by omega)

namespace VtCuda

variable (h : VtCuda F)

/-- The `int`s that the cache is indexed with are sizes, the heads are not empty, and all of the layers are
there. -/
structure Defined : Prop where
  nHeads : Size h.cfg.nHeads
  headSize : Size h.cfg.headSize
  kvDim : Size h.cfg.kvDim
  kvMul : Size h.cfg.kvMul
  layers : h.layers.length = h.cfg.nLayers.toNat
  someHeads : 0 < h.cfg.nHeads
  someCells : h.layers ≠ [] → 0 < h.cfg.headSize

/-- The rows up to `pos` are in the cache, and so is what the heads read of the last of them. -/
structure CacheFits (pos : Nat) : Prop where
  row : 0 < h.cfg.kvDim → pos * h.cfg.kvDim.toNat + h.cfg.kvDim.toNat ≤ h.kvCells
  groups : 0 < h.cfg.kvMul
  heads : 2 ^ 32 ≤ h.kvCells ∨ pos * h.cfg.kvDim.toNat +
    ((h.cfg.nHeads.toNat - 1) / h.cfg.kvMul.toNat + 1) * h.cfg.headSize.toNat ≤ h.kvCells

/-- The sizes of a run over `total` positions do not exceed the storage of the kernels. -/
structure Fits (total : Nat) : Prop where
  scores : h.layers ≠ [] → total ≤ 4096
  cache : h.layers ≠ [] → h.CacheFits (total - 1)
  projections : ∀ l ∈ h.layers, h.ProjectionsFit l
  rest : ∀ l ∈ h.layers, h.RestFits l
  head : h.wcls.Fits h.regime h.cfg.vocab h.cfg.dim

variable {h}

theorem CacheFits.mono {pos last : Nat} (hle : pos ≤ last) (hfits : h.CacheFits last) : h.CacheFits pos := by
  have hrows : pos * h.cfg.kvDim.toNat ≤ last * h.cfg.kvDim.toNat := Nat.mul_le_mul_right _ hle
  refine ⟨fun hkv => ?_, hfits.groups, hfits.heads.imp_right fun hheads => ?_⟩
  · have hrow := hfits.row hkv
    omega
  · omega

namespace Defined

variable (hd : h.Defined)
include hd

theorem completes : h.Completes := by
  refine ⟨Nat.le_of_eq hd.layers.symm, fun hsome => ?_⟩
  have hcells := hd.someCells (List.ne_nil_of_length_pos (by rw [hd.layers]; exact hsome))
  omega

theorem entered_eq : h.entered = h.layers := by
  have hall : h.layers.take h.cfg.nLayers.toNat = h.layers := by rw [← hd.layers, List.take_length]
  unfold entered
  rw [hall]
  split
  next hzero =>
    by_cases hnone : h.layers = []
    · rw [hnone, List.take_nil]
    · have hcells := hd.someCells hnone
      omega
  next => exact hall

theorem rowOff_eq {pos : UInt32} (hshort : pos.toNat < 4096) : h.rowOff pos = pos.toNat * h.cfg.kvDim.toNat := by
  obtain ⟨hlow, hhigh⟩ := hd.kvDim
  have hproduct : pos.toNat * h.cfg.kvDim.toNat ≤ 4096 * 2 ^ 31 := Nat.mul_le_mul (by omega) (by omega)
  unfold rowOff
  rw [hd.kvDim.sizeT, Nat.mod_eq_of_lt (by omega)]

theorem rowFits_iff {pos : UInt32} (hshort : pos.toNat < 4096) :
    h.RowFits pos ↔ (0 < h.cfg.kvDim → pos.toNat * h.cfg.kvDim.toNat + h.cfg.kvDim.toNat ≤ h.kvCells) := by
  unfold RowFits
  rw [hd.rowOff_eq hshort, hd.kvDim.rows]
  exact imp_congr_left (by omega)

/-- The heads of a row are in the row. -/
theorem keysFit {pos : UInt32} (hsome : h.layers ≠ []) (hrow : h.RowFits pos) : h.KeysFit pos := by
  obtain ⟨hkvLow, hkvHigh⟩ := hd.kvDim
  have hcells := hd.someCells hsome
  -- The number of heads of the keys, as the step divides for it.
  have hnKv : Size (h.cfg.kvDim.tdiv h.cfg.headSize) := by
    rw [Int.tdiv_eq_ediv_of_nonneg hkvLow]
    have hle := Int.ediv_le_self h.cfg.headSize hkvLow
    exact ⟨Int.ediv_nonneg hkvLow (by omega), by omega⟩
  -- Whole heads do not exceed the row.
  have hwidth : (h.cfg.kvDim.tdiv h.cfg.headSize).toNat * h.cfg.headSize.toNat ≤ h.cfg.kvDim.toNat := by
    rw [← Int.toNat_mul hnKv.1 (by omega), Int.tdiv_eq_ediv_of_nonneg hkvLow]
    exact Int.toNat_le_toNat (Int.ediv_mul_le _ (by omega))
  intro g hg
  rw [hnKv.rows] at hg
  rw [hd.headSize.unsigned]
  -- Each head of the row ends inside it, and the row inside the cache.
  intro hpair
  have hhead : g * h.cfg.headSize.toNat + h.cfg.headSize.toNat ≤ h.cfg.kvDim.toNat := by
    have hnext := Nat.mul_le_mul_right h.cfg.headSize.toNat (Nat.succ_le_of_lt hg)
    rw [Nat.succ_mul] at hnext
    omega
  have hin := hrow (by rw [hd.kvDim.rows]; omega)
  rw [hd.kvDim.rows] at hin
  have hmod := Nat.mod_le (g * h.cfg.headSize.toNat) (2 ^ 32)
  omega

theorem headsFit_iff {pos : UInt32} (hsome : h.layers ≠ []) (hshort : pos.toNat < 4096)
    (hrow : pos.toNat * h.cfg.kvDim.toNat ≤ h.kvCells) :
    h.HeadsFit pos ↔ 0 < h.cfg.kvMul ∧ (2 ^ 32 ≤ h.kvCells ∨ pos.toNat * h.cfg.kvDim.toNat +
      ((h.cfg.nHeads.toNat - 1) / h.cfg.kvMul.toNat + 1) * h.cfg.headSize.toNat ≤ h.kvCells) := by
  have hheads := hd.someHeads
  have hcells := hd.someCells hsome
  -- Below position 4096, the next position does not wrap.
  have hlen : (pos + 1).toNat = pos.toNat + 1 := by
    have hone : (1 : UInt32).toNat = 1 := rfl
    rw [UInt32.toNat_add, hone, Nat.mod_eq_of_lt (by omega)]
  -- A group size is a size, so it is not zero exactly when it is positive.
  have hmul : unsigned h.cfg.kvMul ≠ 0 ↔ 0 < h.cfg.kvMul := by
    have hzero : (0 : UInt32).toNat = 0 := rfl
    rw [ne_eq, ← UInt32.toNat_inj, hd.kvMul.unsigned, hzero]
    omega
  unfold HeadsFit
  rw [hd.nHeads.rows, hmul, hlen, hd.kvDim.unsigned, hd.kvMul.unsigned, hd.headSize.unsigned,
    imp_iff_right (by omega : 0 < h.cfg.nHeads.toNat)]
  refine and_congr_right fun hgroups => ?_
  -- The remaining bound is over all heads and earlier positions at once.
  rw [and_iff_right (by omega : pos.toNat + 1 ≤ 4096),
    ← reads_iff (by omega : 0 < h.cfg.nHeads.toNat) (by omega : 0 < h.cfg.kvMul.toNat)
      (by omega : 0 < h.cfg.headSize.toNat) hrow]
  simp only [← spanFits_iff, Nat.zero_add]
  exact ⟨fun hall g hg t ht => hall t ht g hg, fun hall t ht g hg => hall g hg t ht⟩

/-- A step at a position that there is room for the scores of. -/
theorem stepFits_iff {pos : UInt32} (hshort : pos.toNat < 4096) :
    h.StepFits pos ↔ (h.layers ≠ [] → h.CacheFits pos.toNat) ∧ (∀ l ∈ h.layers, h.ProjectionsFit l) ∧
      (∀ l ∈ h.layers, h.RestFits l) ∧ h.wcls.Fits h.regime h.cfg.vocab h.cfg.dim := by
  -- The first row's end bounds its start, also where rows are empty.
  have hread : (0 < h.cfg.kvDim → pos.toNat * h.cfg.kvDim.toNat + h.cfg.kvDim.toNat ≤ h.kvCells) →
      pos.toNat * h.cfg.kvDim.toNat ≤ h.kvCells := by
    intro hrow
    by_cases hkv : 0 < h.cfg.kvDim
    · have hin := hrow hkv
      omega
    · have hzero : h.cfg.kvDim.toNat = 0 := by omega
      rw [hzero, Nat.mul_zero]
      exact Nat.zero_le _
  have hcells : h.layers ≠ [] → h.cfg.headSize ≠ 0 := fun hsome => by
    have := hd.someCells hsome
    omega
  constructor
  -- From the launches' fits to conditions on the model.
  · intro hfits
    obtain ⟨hprojections, hrow, hkeys, hheads, hrest, hhead⟩ := hfits
    rw [hd.entered_eq] at hprojections hrow hkeys hheads hrest
    refine ⟨fun hsome => ?_, hprojections, fun l hl => hrest (hcells (List.ne_nil_of_mem hl)) l hl, hhead hd.completes⟩
    have hrow := (hd.rowFits_iff hshort).mp (hrow hsome)
    obtain ⟨hgroups, hlast⟩ := (hd.headsFit_iff hsome hshort (hread hrow)).mp (hheads (hcells hsome) hsome)
    exact ⟨hrow, hgroups, hlast⟩
  -- And back.
  · rintro ⟨hcache, hprojections, hrest, hhead⟩
    have hrow : h.layers ≠ [] → h.RowFits pos := fun hsome => (hd.rowFits_iff hshort).mpr (hcache hsome).row
    constructor
    · rwa [hd.entered_eq]
    · rwa [hd.entered_eq]
    · rw [hd.entered_eq]
      exact fun _ hsome => hd.keysFit hsome (hrow hsome)
    · rw [hd.entered_eq]
      exact fun _ hsome => (hd.headsFit_iff hsome hshort (hread (hcache hsome).row)).mpr
        ⟨(hcache hsome).groups, (hcache hsome).heads⟩
    · rw [hd.entered_eq]
      exact fun _ => hrest
    · exact fun _ => hhead

/-- The first step that there is no room for the scores of. -/
theorem not_stepFits (hsome : h.layers ≠ []) : ¬h.StepFits (UInt32.ofNat 4096) := by
  intro hfits
  have hheads := hd.someHeads
  have hcells := hd.someCells hsome
  obtain ⟨-, hlong, -⟩ := hfits.heads (by omega) (by rwa [hd.entered_eq]) (by rw [hd.nHeads.rows]; omega)
  exact absurd hlong (by decide)

/-- All steps of a run fit exactly if the last one does. -/
theorem fits_iff {total : Nat} (htotal : 0 < total) :
    (∀ pos < total, h.StepFits (UInt32.ofNat pos)) ↔ h.Fits total := by
  have hpos : ∀ {pos : Nat}, pos < 4096 → (UInt32.ofNat pos).toNat = pos := fun hsmall =>
    UInt32.toNat_ofNat_of_lt' (Nat.lt_trans hsmall (by decide))
  constructor
  · intro hall
    have hscores : h.layers ≠ [] → total ≤ 4096 := by
      intro hsome
      by_contra hlong
      exact hd.not_stepFits hsome (hall 4096 (by omega))
    obtain ⟨-, hprojections, hrest, hhead⟩ := (hd.stepFits_iff (by decide : (UInt32.ofNat 0).toNat < 4096)).mp (hall 0 htotal)
    refine ⟨hscores, fun hsome => ?_, hprojections, hrest, hhead⟩
    have hshort := hscores hsome
    have hlast : (UInt32.ofNat (total - 1)).toNat = total - 1 := hpos (by omega)
    have hcache := ((hd.stepFits_iff (by omega)).mp (hall (total - 1) (by omega))).1 hsome
    rwa [hlast] at hcache
  · intro hfits pos hlt
    by_cases hsome : h.layers = []
    · -- only the head is launched
      refine ⟨fun l hl => ?_, fun hne => ?_, fun _ hne => ?_, fun _ hne => ?_, fun _ l hl => ?_, fun _ => hfits.head⟩
      · rw [hd.entered_eq] at hl
        exact hfits.projections l hl
      · exact absurd (hd.entered_eq.trans hsome) hne
      · exact absurd (hd.entered_eq.trans hsome) hne
      · exact absurd (hd.entered_eq.trans hsome) hne
      · rw [hd.entered_eq] at hl
        exact hfits.rest l hl
    · have hshort := hfits.scores hsome
      have hsmall : (UInt32.ofNat pos).toNat = pos := hpos (by omega)
      refine (hd.stepFits_iff (by omega)).mpr ⟨fun _ => ?_, hfits.projections, hfits.rest, hfits.head⟩
      rw [hsmall]
      exact (hfits.cache hsome).mono (by omega)

end Defined

end VtCuda

end Cuda

namespace CudaForward

variable [F32 F] {cf : CudaForward F}

/-- A run of such a model stays inside exactly if its sizes fit. -/
theorem staysInside_defined (hd : cf.h.Defined) (hcos : cf.cos.length = cf.headSize / 2)
    (hsin : cf.sin.length = cf.headSize / 2) (hlogits : cf.vocab * 4 < 2 ^ 63) (tokens : List UInt32) :
    cf.StaysInside tokens ↔ (0 < cf.looked tokens → cf.h.Fits (cf.looked tokens)) := by
  rw [staysInside_iff hcos hsin]
  constructor
  · exact fun hall hsome => (hd.fits_iff hsome).mp fun pos hpos => hall pos ⟨hlogits, hpos, fun _ => hd.completes⟩
  · intro hfits pos hbegins
    have hsome := Nat.zero_lt_of_lt hbegins.looked
    exact (hd.fits_iff hsome).mpr (hfits hsome) pos hbegins.looked

end CudaForward

namespace Cuda

/-! ### The handle of a model -/

theorem cInt_of_lt {n : Nat} (h : n < 2 ^ 31) : cInt n = n := by
  unfold cInt
  rw [Int.bmod_def]
  split <;> omega

theorem size_cInt {n : Nat} (h : n < 2 ^ 31) : Size (cInt n) := by
  rw [cInt_of_lt h]
  constructor <;> omega

theorem sizeT_cInt {n : Nat} (h : n < 2 ^ 31) : sizeT (cInt n) = n := by
  rw [cInt_of_lt h, sizeT]
  omega

theorem devZeros_of_pos {n : Nat} (hsome : 0 < n) (h : n * 4 < 2 ^ 64) : devZeros n = n := by
  unfold devZeros
  rw [if_neg (by omega), Nat.mod_eq_of_lt h, Nat.mul_div_cancel n (by decide)]

theorem engine_eq_ok {α : Type} {x : Res α} {a : α} : engine x = .ok a ↔ x = .ok a := by
  unfold engine
  cases x with
  | ok b => simp
  | error stop => cases stop <;> simp

section New

variable [F32 F] {maxSeqVar : Option Nat} {device : VtCuda F → Bool} {cfg : Config} {w : QuantizedWeights F}
  {regime : Int} {headSize kvDim kvMul : Nat} {wcls : Matrix} {layers : List (VtLayer F)}

/-- The forward pass over a handle, with empty tables. -/
def forwardOf (cfg : Config) (w : QuantizedWeights F) (h : VtCuda F) (headSize : Nat) : CudaForward F where
  h := h
  headSize := headSize
  ropeTheta := w.ropeTheta
  vocab := cfg.vocabSize
  dim := cfg.dim
  embedBytes := w.tokenEmbeddingTable.bytes
  embedDtype := w.tokenEmbeddingTable.dtype.debug
  cos := List.replicate (headSize / 2) F32.zero
  sin := List.replicate (headSize / 2) F32.zero

/-- What `new_regime` returns. -/
theorem newRegime_inv {cf : CudaForward F} (hnew : newRegime maxSeqVar device cfg w regime = .ok cf) :
    ∃ headSize kvDim kvMul wcls layers, cfg.headSize = .ok headSize ∧ cfg.kvDim = .ok kvDim ∧ cfg.kvMul = .ok kvMul ∧
      w.layers.mapM setLayer = .ok layers ∧ cf = forwardOf cfg w (vtCudaNew
        (vtCfg cfg w headSize kvDim kvMul (min cfg.seqLen (maxSeqVar.getD 4096)) regime) wcls w.rmsFinalWeight layers)
        headSize := by
  -- The steps of the constructor in order.
  obtain ⟨headSize, hsize, hnew⟩ := bind_eq_ok.mp hnew
  obtain ⟨qOut, -, hnew⟩ := bind_eq_ok.mp hnew
  obtain ⟨kvDim, hkv, hnew⟩ := bind_eq_ok.mp hnew
  obtain ⟨kvMul, hmul, hnew⟩ := bind_eq_ok.mp hnew
  obtain ⟨wcls, -, hnew⟩ := bind_eq_ok.mp hnew
  obtain ⟨layers, hlayers, hnew⟩ := bind_eq_ok.mp hnew
  refine ⟨headSize, kvDim, kvMul, wcls, layers, engine_eq_ok.mp hsize, engine_eq_ok.mp hkv, engine_eq_ok.mp hmul,
    hlayers, ?_⟩
  split at hnew
  next => cases hnew
  next =>
    -- The device accepted the handle, and both tables were allocated.
    obtain ⟨h, hh, hnew⟩ := bind_eq_ok.mp hnew
    obtain ⟨cos, hcos, hnew⟩ := bind_eq_ok.mp hnew
    obtain ⟨sin, hsin, hnew⟩ := bind_eq_ok.mp hnew
    have hcos := engine_eq_ok.mp hcos
    have hsin := engine_eq_ok.mp hsin
    have hmemory := zeroVec_eq_ok hcos
    rw [zeroVec_of_lt hmemory] at hcos hsin
    cases hcos
    cases hsin
    cases hnew
    unfold vtCudaFinalize at hh
    split at hh
    next => rw [← Except.ok.inj hh]; rfl
    next => cases hh

/-- A model of which everything is there is accepted. -/
theorem newRegime_ok (hdevice : ∀ h, device h = true) (hsize : cfg.headSize = .ok headSize)
    (hkv : cfg.kvDim = .ok kvDim) (hmul : cfg.kvMul = .ok kvMul) (hdim : cfg.dim < wordSize)
    (hmemory : headSize / 2 * 4 < 2 ^ 63) (hnLayers : cfg.nLayers < 2 ^ 31) (hwcls : setWcls w = .ok wcls)
    (hlayers : w.layers.mapM setLayer = .ok layers) (hlength : w.layers.length = cfg.nLayers) :
    newRegime maxSeqVar device cfg w regime = .ok (forwardOf cfg w (vtCudaNew
      (vtCfg cfg w headSize kvDim kvMul (min cfg.seqLen (maxSeqVar.getD 4096)) regime) wcls w.rmsFinalWeight layers)
      headSize) := by
  -- The query's width is at most the model's.
  have hqOut : cfg.nHeads * headSize < wordSize := by
    rw [← (div_eq_ok.mp hsize).2]
    exact Nat.lt_of_le_of_lt (Nat.mul_div_le _ _) hdim
  -- There are as many layers as the configuration says, so none is set out of range.
  have hfew : ¬layers.length > (vtCfg cfg w headSize kvDim kvMul (min cfg.seqLen (maxSeqVar.getD 4096))
      regime).nLayers.toNat := by
    dsimp only [vtCfg]
    rw [(mapM_eq_ok hlayers).1, hlength, cInt_of_lt hnLayers]
    exact Nat.lt_irrefl _
  unfold newRegime
  rw [engine_eq_ok.mpr hsize, ok_bind, engine_eq_ok.mpr (word_of_lt hqOut), ok_bind, engine_eq_ok.mpr hkv, ok_bind,
    engine_eq_ok.mpr hmul, ok_bind, hwcls, ok_bind, hlayers, ok_bind, if_neg hfew]
  unfold vtCudaFinalize
  rw [if_pos (hdevice _), ok_bind, engine_eq_ok.mpr (zeroVec_of_lt hmemory), ok_bind, ok_bind]
  rfl

/-- The tables have an entry for every pair of a head. -/
theorem newRegime_tables {cf : CudaForward F} (hnew : newRegime maxSeqVar device cfg w regime = .ok cf) :
    cf.cos.length = cf.headSize / 2 ∧ cf.sin.length = cf.headSize / 2 := by
  obtain ⟨headSize, kvDim, kvMul, wcls, layers, -, -, -, -, rfl⟩ := newRegime_inv hnew
  exact ⟨List.length_replicate, List.length_replicate⟩

/-- Models with sizes below `2^31`, whose layers are all there. -/
theorem newRegime_defined {cf : CudaForward F} (hnew : newRegime maxSeqVar device cfg w regime = .ok cf)
    (hdim : cfg.dim < 2 ^ 31) (hkv : ∀ kvDim, cfg.kvDim = .ok kvDim → kvDim < 2 ^ 31) (hheads : cfg.nHeads < 2 ^ 31)
    (hnLayers : cfg.nLayers < 2 ^ 31) (hlength : w.layers.length = cfg.nLayers)
    (hcells : 0 < cfg.nLayers → ∀ headSize, cfg.headSize = .ok headSize → 0 < headSize) : cf.h.Defined := by
  obtain ⟨headSize, kvDim, kvMul, wcls, layers, hsize, hkvDim, hkvMul, hlayers, rfl⟩ := newRegime_inv hnew
  obtain ⟨hsomeHeads, hquot⟩ := div_eq_ok.mp hsize
  obtain ⟨-, hgroup⟩ := div_eq_ok.mp hkvMul
  -- All sizes are quotients of ones that fit a C integer.
  have hsizeLe : headSize ≤ cfg.dim := hquot ▸ Nat.div_le_self _ _
  have hmulLe : kvMul ≤ cfg.nHeads := hgroup ▸ Nat.div_le_self _ _
  have hall : layers.length = cfg.nLayers := (mapM_eq_ok hlayers).1.trans hlength
  constructor <;> dsimp only [forwardOf, vtCudaNew, vtCfg]
  · exact size_cInt hheads
  · exact size_cInt (by omega)
  · exact size_cInt (hkv kvDim hkvDim)
  · exact size_cInt (by omega)
  · rw [hall, cInt_of_lt hnLayers]
    rfl
  · rw [cInt_of_lt hheads]
    omega
  · intro hsome
    have hpos := hcells (hall ▸ List.length_pos_of_ne_nil hsome) headSize hsize
    rw [cInt_of_lt (by omega)]
    omega

end New

end Cuda

end VitniTensor
