import VitniTensor.Model.Builds

/-!
# Weights of the right sizes

On a matrix of a supported dtype and of exactly the size that its dims ask for, the dispatching
linear returns, and so does the lookup of every row of an embedding table.
-/

namespace VitniTensor

open Outcome Fill

variable {F : Type} [F32 F]

/-! ### The arms of the dispatch -/

section Arms

variable {x y : List F} {w : List UInt8} {inFeat outFeat : Nat}

theorem linearQ4KFused_returns (h : HoldsRows 144 inFeat outFeat w) (hx : x.length = inFeat)
    (hy : y.length = outFeat) : ∃ y', linearQ4KFused x w y 1 inFeat outFeat = .ok y' := by
  unfold linearQ4KFused
  rw [if_neg (not_not_intro h.whole)]
  refine linearRows_total (by omega) (by omega) h.rows (fun xRow _ => ⟨xRow, rfl⟩) fun xRow a wRow hxRow ha hlength => ?_
  cases ha
  obtain ⟨v, hv⟩ := canonicalDotQ4kFused_row (hxRow.trans h.features) hlength
  rw [← h.features] at hv
  exact ⟨v, hv⟩

/-- The integer linears: activations quantized once, then a row kernel. -/
private theorem integerRows_returns {size : Nat} (h : HoldsRows size inFeat outFeat w)
    (hx : x.length = inFeat) (hy : y.length = outFeat)
    {row : List (Q8Block F) → List UInt8 → Res F}
    (hrow : ∀ xRow xq wRow, xRow.length = inFeat → quantizeRow (inFeat / 256) xRow = .ok xq →
      wRow.length = inFeat / 256 * size → ∃ v, row xq wRow = .ok v) (ragged short : String) :
    ∃ y', (checkRows ragged short (inFeat / 256 * size) inFeat outFeat w >>= fun _ =>
      linearRows (inFeat / 256 * size) (quantizeRow (inFeat / 256)) row x w y 1 inFeat outFeat) =
        .ok y' := by
  rw [h.checkRows_ok, ok_bind]
  refine linearRows_total (by omega) (by omega) h.rows (fun xRow hxRow => ?_) hrow
  obtain ⟨q, -, -, hq⟩ := quantizeRow_ok (hxRow.trans h.features)
  exact ⟨_, hq⟩

theorem linearQ6KInteger_returns (h : HoldsRows 210 inFeat outFeat w) (hx : x.length = inFeat)
    (hy : y.length = outFeat) : ∃ y', linearQ6KInteger x w y 1 inFeat outFeat = .ok y' :=
  integerRows_returns h hx hy (fun _ _ _ hxRow hxq hlength => treeRow_ok (by decide)
    (fun block q hq => dotQ6kQ8Block_ok block hq 256) (hxRow.trans h.features) hxq hlength) _ _

theorem linearQ4KIntegerRs_returns (h : HoldsRows 144 inFeat outFeat w) (hx : x.length = inFeat)
    (hy : y.length = outFeat) : ∃ y', linearQ4KIntegerRs x w y 1 inFeat outFeat = .ok y' :=
  integerRows_returns h hx hy (fun _ _ _ hxRow hxq hlength => runningRow_ok (by decide)
    (fun block q hq => dotQ4kQ8Block_ok block hq 256) (hxRow.trans h.features) hxq hlength) _ _

theorem linearQ6KIntegerRs_returns (h : HoldsRows 210 inFeat outFeat w) (hx : x.length = inFeat)
    (hy : y.length = outFeat) : ∃ y', linearQ6KIntegerRs x w y 1 inFeat outFeat = .ok y' :=
  integerRows_returns h hx hy (fun _ _ _ hxRow hxq hlength => runningRow_ok (by decide)
    (fun block q hq => dotQ6kQ8Block_ok block hq 256) (hxRow.trans h.features) hxq hlength) _ _

/-- Bytes of whole blocks decode to as many weights as the rows have features. -/
private theorem dequantRow_ok {per size inFeat : Nat} (hsize : 0 < size) (ragged : String)
    {decode : Vector UInt8 size → List F} (hdecode : ∀ block, (decode block).length = per)
    (hwhole : inFeat % per = 0) {bytes : List UInt8} (rows : Nat)
    (hbytes : bytes.length = rows * (inFeat / per * size)) (hmemory : rows * inFeat * 4 < 2 ^ 63) :
    ∃ out, dequantize size per ragged decode bytes = .ok out ∧ out.length = rows * inFeat := by
  have hlength : bytes.length = rows * (inFeat / per) * size := by rw [hbytes, Nat.mul_assoc]
  have hcount : bytes.length / size * per = rows * inFeat := by
    rw [hlength, Nat.mul_div_cancel _ hsize, Nat.mul_assoc, Nat.div_mul_cancel (Nat.dvd_of_mod_eq_zero hwhole)]
  rw [← hcount] at hmemory ⊢
  exact dequantize_ok hdecode (by rw [hlength, Nat.mul_mod_left]) hmemory

theorem linearByRow_returns {size : Nat} (hsize : 0 < size) {rowBytes : Nat → Res Nat} {small ragged : String}
    {decode : Vector UInt8 size → List F} (hdecode : ∀ block, (decode block).length = 32)
    (hrowBytes : rowBytes inFeat = .ok (inFeat / 32 * size)) (hwhole : inFeat % 32 = 0)
    (hw : outFeat * (inFeat / 32 * size) ≤ w.length) (hmemory : w.length < 2 ^ 63)
    (hslice : inFeat * 4 < 2 ^ 63) (hx : x.length = inFeat) (hy : y.length = outFeat) :
    ∃ y', linearByRow rowBytes small (dequantize size 32 ragged decode) x w inFeat outFeat y = .ok y' := by
  unfold linearByRow
  rw [hrowBytes, ok_bind, word_of_lt (by unfold wordSize; omega), ok_bind, if_neg (by omega)]
  refine rowLoop_returns hw (by omega) fun wRow hlength => ?_
  obtain ⟨row, hrow, hcount⟩ :=
    dequantRow_ok hsize ragged hdecode hwhole 1 (by rw [hlength, Nat.one_mul]) (by rwa [Nat.one_mul])
  rw [hrow, ok_bind]
  exact canonicalDot_ok (by omega) (by omega)

theorem linearF32_returns {t : QuantTensor} (hw : t.bytes.length = outFeat * inFeat * 4)
    (hmemory : t.bytes.length < 2 ^ 63) (haligned : t.aligned = true) (hx : x.length = inFeat)
    (hy : y.length = outFeat) : ∃ y', linearF32 x t inFeat outFeat y = .ok y' := by
  have hview : f32View t.bytes t.aligned = .ok ((blocksOf 4 t.bytes).map (f32Le : _ → F)) := by
    unfold f32View
    rw [if_neg (by omega), haligned]
    rfl
  unfold linearF32
  rw [word_of_lt (by unfold wordSize; omega), ok_bind, word_of_lt (by unfold wordSize; omega), ok_bind,
    if_neg (by omega), hview, ok_bind]
  refine rowLoop_returns ?_ (by omega) fun row hlength => ?_
  · rw [List.length_map, length_blocksOf]
    omega
  · exact canonicalDot_ok (by omega) (by omega)

theorem linearQ4_0Cpu_returns (hwhole : inFeat % 32 = 0)
    (hw : w.length = outFeat * (inFeat / 32 * 18)) (hmemory : w.length < 2 ^ 63)
    (hdecoded : outFeat * inFeat * 4 < 2 ^ 63) (hx : x.length = inFeat) (hy : y.length = outFeat)
    (hxs : inFeat * 4 < 2 ^ 63) (hys : outFeat * 4 < 2 ^ 63) : ∃ y', linearQ4_0Cpu x w y 1 inFeat outFeat = .ok y' := by
  obtain ⟨wF32, hdecode, hcount⟩ := @dequantRow_ok F _ 32 18 inFeat (by decide)
    "Q4_0 byte length not a multiple of 18" q4_0Weights length_q4_0Weights hwhole _ _ hw hdecoded
  have hblocks : outFeat * (inFeat / 32) * 18 = w.length := by rw [hw, Nat.mul_assoc]
  unfold linearQ4_0Cpu
  rw [if_neg (not_not_intro hwhole), word_of_lt (by unfold wordSize; omega), ok_bind,
    word_of_lt (by unfold wordSize; omega), ok_bind, if_neg (by omega), Nat.one_mul, Nat.one_mul,
    word_of_lt (by unfold wordSize; omega), ok_bind, if_neg (by omega), word_of_lt (by unfold wordSize; omega),
    ok_bind, if_neg (by omega)]
  unfold dequantizeQ4_0
  rw [hdecode, ok_bind]
  refine linearRows_total (by omega) (by omega) (by omega) (fun xRow _ => ⟨xRow, rfl⟩) fun xRow a wRow hxRow ha hlength => ?_
  cases ha
  exact canonicalDot_ok (by omega) (by omega)

end Arms

/-! ### Matrices of exact size -/

/-- Elements and bytes of a block, for the dtypes that the forward pass reads. -/
def GgufTensorType.blockOf : GgufTensorType → Option (Nat × Nat)
  | f32 => some (1, 4)
  | q4_0 => some (32, 18)
  | q5_0 => some (32, 22)
  | q8_0 => some (32, 34)
  | q4_k => some (256, 144)
  | q6_k => some (256, 210)
  | f16 => none
  | other _ => none

/-- An `out_feat × in_feat` matrix in memory: its rows are whole blocks, and nothing else, and the vectors of
its shape fit in memory too. -/
structure QuantTensor.OfSize (t : QuantTensor) (inFeat outFeat : Nat) : Prop where
  exact : ∃ per size, t.dtype.blockOf = some (per, size) ∧ inFeat % per = 0 ∧
    t.bytes.length = outFeat * (inFeat / per * size)
  memory : t.bytes.length < 2 ^ 63
  aligned : t.dtype = .f32 → t.aligned = true
  features : inFeat * 4 < 2 ^ 63 ∧ outFeat * 4 < 2 ^ 63

/-- The linear of Q4_0 decodes the whole matrix, and its elements have to fit in memory. -/
structure QuantTensor.Holds (t : QuantTensor) (inFeat outFeat : Nat) : Prop extends t.OfSize inFeat outFeat where
  decodes : t.dtype = .q4_0 → outFeat * inFeat * 4 < 2 ^ 63

theorem QuantTensor.OfSize.holdsRows {t : QuantTensor} {inFeat outFeat : Nat}
    (h : t.OfSize inFeat outFeat) : t.HoldsRows inFeat outFeat := by
  obtain ⟨per, size, hblock, hwhole, hlength⟩ := h.exact
  refine ⟨fun hdtype => ?_, fun hdtype => ?_⟩
  all_goals
    rw [hdtype] at hblock
    cases hblock
    exact ⟨hwhole, Nat.le_of_eq hlength.symm, h.memory⟩

/-- The linear of a step returns on a matrix of exact size. -/
theorem linearDispatch_ok (build : Build) {x : List F} {t : QuantTensor} {inFeat outFeat : Nat}
    (h : t.Holds inFeat outFeat) (hx : x.length = inFeat) (regime : UInt8) :
    ∃ y, linearDispatch build x t inFeat outFeat regime = .ok y ∧ y.length = outFeat := by
  suffices hrun : ∃ y, linearDispatch .serial x t inFeat outFeat regime = .ok y by
    obtain ⟨y, hy⟩ := hrun
    exact ⟨y, by rw [linearDispatch_build build h.holdsRows, hy], length_linearDispatch hy⟩
  have hrows := h.holdsRows
  have hmemory := h.memory
  have hy : (List.replicate outFeat (F32.zero : F)).length = outFeat := List.length_replicate
  obtain ⟨per, size, hblock, hwhole, hlength⟩ := h.exact
  rw [linearDispatch_eq h.features.2]
  unfold linearArms
  cases hdtype : t.dtype with
  | q4_0 =>
    rw [hdtype] at hblock
    cases hblock
    exact linearQ4_0Cpu_returns hwhole hlength hmemory (h.decodes hdtype) hx hy h.features.1 h.features.2
  | f32 =>
    rw [hdtype] at hblock
    cases hblock
    refine linearF32_returns ?_ hmemory (h.aligned hdtype) hx hy
    rw [hlength, Nat.div_one, Nat.mul_assoc]
  | q4_k =>
    dsimp only
    split
    next => exact linearQ4KIntegerRs_returns (hrows.q4k hdtype) hx hy
    next => exact linearQ4KFused_returns (hrows.q4k hdtype) hx hy
  | q6_k =>
    dsimp only
    split
    next => exact linearQ6KIntegerRs_returns (hrows.q6k hdtype) hx hy
    next => exact linearQ6KInteger_returns (hrows.q6k hdtype) hx hy
  | q8_0 =>
    rw [hdtype] at hblock
    cases hblock
    refine linearByRow_returns (by decide) length_q8_0Weights ?_ hwhole (Nat.le_of_eq hlength.symm)
      hmemory h.features.1 hx hy
    exact if_neg (not_not_intro hwhole)
  | q5_0 =>
    rw [hdtype] at hblock
    cases hblock
    refine linearByRow_returns (by decide) length_q5_0Weights ?_ hwhole (Nat.le_of_eq hlength.symm)
      hmemory h.features.1 hx hy
    exact if_neg (not_not_intro hwhole)
  | f16 => rw [hdtype] at hblock; cases hblock
  | other raw => rw [hdtype] at hblock; cases hblock

/-- Rows of no features are all there. -/
theorem embeddingRow_zero {t : QuantTensor} {outFeat : Nat} (h : t.OfSize 0 outFeat) (row : Nat) :
    (embeddingRow t row 0 : Res (List F)) = .ok [] := by
  obtain ⟨per, size, hblock, -, hlength⟩ := h.exact
  have hempty : t.bytes = [] := by
    rw [Nat.zero_div, Nat.zero_mul, Nat.mul_zero] at hlength
    exact List.length_eq_zero_iff.mp hlength
  have haligned := h.aligned
  have hword : 0 < wordSize := by decide
  unfold embeddingRow
  cases hdtype : t.dtype with
  | f32 => simp [hempty, hword, haligned hdtype, f32View, word, slice, blocksOf]
  | f16 => rw [hdtype] at hblock; cases hblock
  | other raw => rw [hdtype] at hblock; cases hblock
  | _ => simp [hempty, hword, embeddingBlocks, word, slice, blocksOf, dequantizeQ4_0, dequantizeQ4K,
      dequantizeQ6K, dequantizeQ5_0, dequantizeQ8_0, dequantize, zeroVec]

/-! ### A model of exact sizes -/

structure QuantLayer.Sized (blk : QuantLayer F) (cfg : Config) (headSize : Nat) : Prop where
  rmsAtt : blk.rmsAttWeight.length = cfg.dim
  rmsFfn : blk.rmsFfnWeight.length = cfg.dim
  wq : blk.wq.Holds cfg.dim (cfg.nHeads * headSize)
  wk : blk.wk.Holds cfg.dim (cfg.nKvHeads * headSize)
  wv : blk.wv.Holds cfg.dim (cfg.nKvHeads * headSize)
  wo : blk.wo.Holds cfg.dim cfg.dim
  w1 : blk.w1.Holds cfg.dim cfg.hiddenDim
  w2 : blk.w2.Holds cfg.hiddenDim cfg.dim
  w3 : blk.w3.Holds cfg.dim cfg.hiddenDim

/-- The weights have the sizes that the configuration says, and the matrices of linears can be decoded. -/
structure QuantizedWeights.Sized (w : QuantizedWeights F) (cfg : Config) (headSize : Nat) : Prop where
  layers : w.layers.length = cfg.nLayers
  each : ∀ blk ∈ w.layers, blk.Sized cfg headSize
  rmsFinal : w.rmsFinalWeight.length = cfg.dim
  embedding : w.tokenEmbeddingTable.OfSize cfg.dim cfg.vocabSize
  /-- A table that is the head too. -/
  tied : w.wcls = none → w.tokenEmbeddingTable.Holds cfg.dim cfg.vocabSize
  wcls : ∀ t, w.wcls = some t → t.Holds cfg.dim cfg.vocabSize

end VitniTensor
