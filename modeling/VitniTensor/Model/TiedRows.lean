import VitniTensor.Model.Products
import VitniTensor.Quant.Unpack

/-!
# Linears and lookups of one table

Every arm of the dispatching linear and of the embedding lookup finds row `r` of a table at an
offset of its own making. All of them read the rows of one matrix, the decoded table, so that an
embedding table can serve as output projection.
-/

namespace VitniTensor

open Outcome Fill Rows

variable {F : Type} [F32 F]

/-- The dequantization of a whole table. -/
def QuantTensor.decoded (t : QuantTensor) : Res (List F) :=
  match t.dtype with
  | .f32 => f32View t.bytes t.aligned
  | .q4_0 => dequantizeQ4_0 t.bytes
  | .q4_k => dequantizeQ4K t.bytes
  | .q6_k => dequantizeQ6K t.bytes
  | .q5_0 => dequantizeQ5_0 t.bytes
  | .q8_0 => dequantizeQ8_0 t.bytes
  | .f16 | .other _ => .error (.err (.notImplemented "embedding_row"
      "non-Q4_0 / Q4_K / Q6_K / Q8_0 / F32 embedding dtype"))

/-- The elements of a table, row after row. -/
def QuantTensor.table (t : QuantTensor) : List F :=
  match t.dtype with
  | .f32 => (blocksOf 4 t.bytes).map f32Le
  | .q4_0 => (blocksOf 18 t.bytes).flatMap q4_0Weights
  | .q4_k => (blocksOf 144 t.bytes).flatMap q4kWeights
  | .q6_k => (blocksOf 210 t.bytes).flatMap q6kWeights
  | .q5_0 => (blocksOf 22 t.bytes).flatMap q5_0Weights
  | .q8_0 => (blocksOf 34 t.bytes).flatMap q8_0Weights
  | .f16 | .other _ => []

/-- The bytes behind a view: whole, aligned, and read four at a time. -/
theorem f32View_inv {bytes : List UInt8} {aligned : Bool} {ws : List F} (h : f32View bytes aligned = .ok ws) :
    bytes.length = ws.length * 4 ∧ aligned = true ∧ ws = (blocksOf 4 bytes).map f32Le := by
  have hcount := f32View_eq_ok h
  unfold f32View at h
  split at h
  next => cases h
  next hwhole =>
    split at h
    next => cases h
    next haligned =>
      cases h
      refine ⟨by omega, ?_, rfl⟩
      simpa using haligned

/-- What is decoded are the elements. -/
theorem QuantTensor.decoded_eq_ok {t : QuantTensor} {xs : List F} (h : t.decoded = .ok xs) : xs = t.table := by
  unfold QuantTensor.decoded at h
  unfold QuantTensor.table
  cases hdtype : t.dtype with
  | f32 =>
    rw [hdtype] at h
    exact (f32View_inv h).2.2
  | f16 => rw [hdtype] at h; cases h
  | other raw => rw [hdtype] at h; cases h
  | _ =>
    rw [hdtype] at h
    exact (dequantize_eq_ok h).2.2

/-! ### The arms of the linear -/

section Linear

variable {x y : List F} {w : List UInt8} {inFeat outFeat : Nat}

theorem linearByRow_eq {size : Nat} (hsize : 0 < size) {rowBytes : Nat → Res Nat} {small ragged : String}
    {decode : Vector UInt8 size → List F} (hdecode : ∀ block, (decode block).length = 32)
    (hrowBytes : rowBytes inFeat = .ok (inFeat / 32 * size)) (hwhole : inFeat % 32 = 0)
    (hw : w.length = outFeat * (inFeat / 32 * size)) (hmemory : w.length < 2 ^ 63)
    (hslice : inFeat * 4 < 2 ^ 63) (hx : x.length = inFeat) (hy : y.length = outFeat) :
    linearByRow rowBytes small (dequantize size 32 ragged decode) x w inFeat outFeat y =
      .ok (rowProducts x ((blocksOf size w).flatMap decode) inFeat outFeat) := by
  have hfeat : inFeat / 32 * 32 = inFeat := Nat.div_mul_cancel (Nat.dvd_of_mod_eq_zero hwhole)
  have hlength := length_decoded hsize hdecode hw
  rw [hfeat] at hlength
  unfold linearByRow
  rw [hrowBytes, ok_bind, word_of_lt (by unfold wordSize; omega), ok_bind, if_neg (by omega)]
  refine rowLoop_eq hw hy fun o ho => ?_
  rw [dequantize_row hsize hdecode hw (by rwa [hfeat]) ho, hfeat, ok_bind]
  exact canonicalDot_eq (Nat.le_of_eq hx.symm) (Nat.le_of_eq (length_row ho hlength).symm)

theorem f32View_eq {t : QuantTensor} (hw : t.bytes.length = outFeat * inFeat * 4) (haligned : t.aligned = true) :
    f32View t.bytes t.aligned = .ok ((blocksOf 4 t.bytes).map (f32Le : _ → F)) ∧
      ((blocksOf 4 t.bytes).map (f32Le : _ → F)).length = outFeat * inFeat := by
  constructor
  · unfold f32View
    rw [if_neg (by omega), haligned]
    rfl
  · rw [List.length_map, length_blocksOf, hw, Nat.mul_div_cancel _ (by decide)]

theorem linearF32_eq {t : QuantTensor} (hw : t.bytes.length = outFeat * inFeat * 4)
    (hmemory : t.bytes.length < 2 ^ 63) (haligned : t.aligned = true) (hx : x.length = inFeat)
    (hy : y.length = outFeat) :
    linearF32 x t inFeat outFeat y =
      .ok (rowProducts x ((blocksOf 4 t.bytes).map f32Le) inFeat outFeat) := by
  obtain ⟨hview, hlength⟩ := f32View_eq (F := F) hw haligned
  unfold linearF32
  rw [word_of_lt (by unfold wordSize; omega), ok_bind, word_of_lt (by unfold wordSize; omega), ok_bind,
    if_neg (by omega), hview, ok_bind]
  exact rowLoop_eq hlength hy fun o ho =>
    canonicalDot_eq (Nat.le_of_eq hx.symm) (Nat.le_of_eq (length_row ho hlength).symm)

/-- The fused kernel reads the row that the lookup decodes. -/
theorem linearQ4KFused_eq (hwhole : inFeat % 256 = 0) (hw : w.length = outFeat * (inFeat / 256 * 144))
    (hx : x.length = inFeat) (hy : y.length = outFeat) :
    linearQ4KFused x w y 1 inFeat outFeat =
      .ok (rowProducts x ((blocksOf 144 w).flatMap q4kWeights) inFeat outFeat) := by
  have hfeat : inFeat / 256 * 256 = inFeat := Nat.div_mul_cancel (Nat.dvd_of_mod_eq_zero hwhole)
  have hlength := length_decoded (by decide) (length_q4kWeights (F := F)) hw
  rw [hfeat] at hlength
  unfold linearQ4KFused
  rw [if_neg (not_not_intro hwhole), linearRows_one hx]
  refine rowLoop_eq hw hy fun o ho => ?_
  have hrow : (row (inFeat / 256 * 144) w o).length = inFeat / 256 * 144 := length_row ho hw
  have hbytes : (row (inFeat / 256 * 144) w o).length % 144 = 0 := by rw [hrow, Nat.mul_mod_left]
  have hcount : inFeat ≤ (row (inFeat / 256 * 144) w o).length / 144 * 256 := by
    rw [hrow, Nat.mul_div_cancel _ (by decide), hfeat]
  have hdecoded := decoded_row (by decide) (length_q4kWeights (F := F)) hw ho
  rw [hfeat] at hdecoded
  rw [canonicalDotQ4kFused_eq (Nat.le_of_eq hx.symm) hbytes hcount, hdecoded]
  exact canonicalDot_eq (Nat.le_of_eq hx.symm) (Nat.le_of_eq (length_row ho hlength).symm)

end Linear

/-! ### One matrix -/

/-- The lookup finds the rows of `table`, and the linear reduces them. -/
structure QuantTensor.Reads (t : QuantTensor) (inFeat outFeat : Nat) (table : List F) : Prop where
  decoded : outFeat * inFeat * 4 < 2 ^ 63 → t.decoded = .ok table
  length : table.length = outFeat * inFeat
  lookup : ∀ r < outFeat, embeddingRow t r inFeat = .ok (row inFeat table r)
  linear : t.dtype ≠ .q6_k → (t.dtype = .q4_0 → outFeat * inFeat * 4 < 2 ^ 63) → ∀ (build : Build) (x : List F) (regime : UInt8), regime ≠ 3 →
    x.length = inFeat →
    linearDispatch build x t inFeat outFeat regime = .ok (rowProducts x table inFeat outFeat)

section Blocks

variable {t : QuantTensor} {inFeat outFeat per size : Nat} {ragged : String}
  {decode : Vector UInt8 size → List F}

private theorem decoded_blocks (hsize : 0 < size) (hdecode : ∀ block, (decode block).length = per)
    (hwhole : inFeat % per = 0) (hlength : t.bytes.length = outFeat * (inFeat / per * size)) :
    (outFeat * inFeat * 4 < 2 ^ 63 →
      dequantize size per ragged decode t.bytes = .ok ((blocksOf size t.bytes).flatMap decode)) ∧
      ((blocksOf size t.bytes).flatMap decode).length = outFeat * inFeat := by
  have hcount : ((blocksOf size t.bytes).flatMap decode).length = outFeat * inFeat := by
    rw [length_decoded hsize hdecode hlength, Nat.div_mul_cancel (Nat.dvd_of_mod_eq_zero hwhole)]
  refine ⟨fun hmemory => dequantize_eq (by rw [hlength, ← Nat.mul_assoc, Nat.mul_mod_left]) ?_, hcount⟩
  rwa [← length_flatMap_blocksOf hdecode, hcount]

end Blocks

theorem QuantTensor.OfSize.reads {t : QuantTensor} {inFeat outFeat : Nat} (h : t.OfSize inFeat outFeat) :
    t.Reads inFeat outFeat (t.table : List F) := by
  have hrows := h.holdsRows
  have hmemory := h.memory
  obtain ⟨hslice, hout⟩ := h.features
  have hzeros : (List.replicate outFeat (F32.zero : F)).length = outFeat := List.length_replicate
  obtain ⟨per, size, hblock, hwhole, hlength⟩ := h.exact
  cases hdtype : t.dtype with
  | f32 =>
    rw [hdtype] at hblock
    cases hblock
    have hcells : t.bytes.length = outFeat * inFeat * 4 := by rw [hlength, Nat.div_one, Nat.mul_assoc]
    obtain ⟨hview, hcount⟩ := f32View_eq (F := F) hcells (h.aligned hdtype)
    have htable : (t.table : List F) = (blocksOf 4 t.bytes).map f32Le := by rw [QuantTensor.table, hdtype]
    rw [htable]
    refine ⟨?_, hcount, fun r hr => ?_, fun _ _ build x regime _ hx => ?_⟩
    · intro _
      unfold QuantTensor.decoded
      rw [hdtype]
      exact hview
    · have hend := row_end_le hr hcount
      rw [hcount] at hend
      unfold embeddingRow
      rw [hdtype]
      dsimp only
      rw [Nat.succ_mul, word_of_lt (by unfold wordSize; omega), ok_bind, word_of_lt (by unfold wordSize; omega),
        ok_bind, if_neg (by omega), hview, ok_bind, slice_eq_row hr hcount]
    · rw [linearDispatch_eq hout]
      unfold linearArms
      rw [hdtype]
      exact linearF32_eq hcells hmemory (h.aligned hdtype) hx hzeros
  | q4_0 =>
    rw [hdtype] at hblock
    cases hblock
    obtain ⟨hdecoded, hcount⟩ := decoded_blocks (by decide) (length_q4_0Weights (F := F)) hwhole hlength
    have htable : (t.table : List F) = (blocksOf 18 t.bytes).flatMap q4_0Weights := by rw [QuantTensor.table, hdtype]
    rw [htable]
    refine ⟨?_, hcount, fun r hr => ?_, fun _ hdecodes build x regime _ hx => ?_⟩
    · intro hmemory
      unfold QuantTensor.decoded
      rw [hdtype]
      exact hdecoded hmemory
    · unfold embeddingRow
      rw [hdtype]
      exact embeddingBlocks_eq (by decide) length_q4_0Weights hwhole hlength hmemory hslice hr _ _
    · exact linearQ4_0_ok build ⟨h, hdecodes⟩ hdtype hx regime
  | q4_k =>
    rw [hdtype] at hblock
    cases hblock
    obtain ⟨hdecoded, hcount⟩ := decoded_blocks (by decide) (length_q4kWeights (F := F)) hwhole hlength
    have htable : (t.table : List F) = (blocksOf 144 t.bytes).flatMap q4kWeights := by rw [QuantTensor.table, hdtype]
    rw [htable]
    refine ⟨?_, hcount, fun r hr => ?_, fun _ _ build x regime hregime hx => ?_⟩
    · intro hmemory
      unfold QuantTensor.decoded
      rw [hdtype]
      exact hdecoded hmemory
    · unfold embeddingRow
      rw [hdtype]
      exact embeddingBlocks_eq (by decide) length_q4kWeights hwhole hlength hmemory hslice hr _ _
    · rw [linearDispatch_build build hrows]
      rw [linearDispatch_eq hout]
      unfold linearArms
      rw [hdtype]
      dsimp only
      rw [if_neg hregime]
      exact linearQ4KFused_eq hwhole hlength hx hzeros
  | q6_k =>
    rw [hdtype] at hblock
    cases hblock
    obtain ⟨hdecoded, hcount⟩ := decoded_blocks (by decide) (length_q6kWeights (F := F)) hwhole hlength
    have htable : (t.table : List F) = (blocksOf 210 t.bytes).flatMap q6kWeights := by rw [QuantTensor.table, hdtype]
    rw [htable]
    refine ⟨?_, hcount, fun r hr => ?_, fun hother => absurd hdtype hother⟩
    · intro hmemory
      unfold QuantTensor.decoded
      rw [hdtype]
      exact hdecoded hmemory
    · unfold embeddingRow
      rw [hdtype]
      exact embeddingBlocks_eq (by decide) length_q6kWeights hwhole hlength hmemory hslice hr _ _
  | q8_0 =>
    rw [hdtype] at hblock
    cases hblock
    obtain ⟨hdecoded, hcount⟩ := decoded_blocks (by decide) (length_q8_0Weights (F := F)) hwhole hlength
    have htable : (t.table : List F) = (blocksOf 34 t.bytes).flatMap q8_0Weights := by rw [QuantTensor.table, hdtype]
    rw [htable]
    refine ⟨?_, hcount, fun r hr => ?_, fun _ _ build x regime _ hx => ?_⟩
    · intro hmemory
      unfold QuantTensor.decoded
      rw [hdtype]
      exact hdecoded hmemory
    · unfold embeddingRow
      rw [hdtype]
      exact embeddingBlocks_eq (by decide) length_q8_0Weights hwhole hlength hmemory hslice hr _ _
    · rw [linearDispatch_eq hout]
      unfold linearArms
      rw [hdtype]
      exact linearByRow_eq (by decide) length_q8_0Weights (if_neg (not_not_intro hwhole)) hwhole hlength
        hmemory hslice hx hzeros
  | q5_0 =>
    rw [hdtype] at hblock
    cases hblock
    obtain ⟨hdecoded, hcount⟩ := decoded_blocks (by decide) (length_q5_0Weights (F := F)) hwhole hlength
    have htable : (t.table : List F) = (blocksOf 22 t.bytes).flatMap q5_0Weights := by rw [QuantTensor.table, hdtype]
    rw [htable]
    refine ⟨?_, hcount, fun r hr => ?_, fun _ _ build x regime _ hx => ?_⟩
    · intro hmemory
      unfold QuantTensor.decoded
      rw [hdtype]
      exact hdecoded hmemory
    · unfold embeddingRow
      rw [hdtype]
      exact embeddingBlocks_eq (by decide) length_q5_0Weights hwhole hlength hmemory hslice hr _ _
    · rw [linearDispatch_eq hout]
      unfold linearArms
      rw [hdtype]
      exact linearByRow_eq (by decide) length_q5_0Weights (if_neg (not_not_intro hwhole)) hwhole hlength
        hmemory hslice hx hzeros
  | f16 => rw [hdtype] at hblock; cases hblock
  | other raw => rw [hdtype] at hblock; cases hblock

/-- **One table for both.** If its elements fit in memory, a table of exact size dequantizes to a matrix
whose rows are what the embedding lookup returns; and, for every dtype but Q6_K, output `r` of the linear is
the canonical dot product with the embedding row of `r`. -/
theorem linear_reads_embedding (t : QuantTensor) (inFeat outFeat : Nat) (h : t.Holds inFeat outFeat) :
    (outFeat * inFeat * 4 < 2 ^ 63 → ∃ table : List F, t.decoded = .ok table ∧ table.length = outFeat * inFeat ∧
      ∀ r < outFeat, embeddingRow t r inFeat = .ok ((table.drop (r * inFeat)).take inFeat)) ∧
    (t.dtype ≠ .q6_k → ∀ (build : Build) (x : List F), x.length = inFeat →
      ∃ y, linearDispatch build x t inFeat outFeat 2 = .ok y ∧ y.length = outFeat ∧
        ∀ r < outFeat, ∃ e v, embeddingRow t r inFeat = .ok e ∧ canonicalDot x e inFeat = .ok v ∧
          y[r]? = some v) := by
  have hreads := h.reads (F := F)
  refine ⟨fun hmemory => ⟨t.table, hreads.decoded hmemory, hreads.length, hreads.lookup⟩, fun hdtype build x hx => ?_⟩
  refine ⟨_, hreads.linear hdtype h.decodes build x 2 (by decide) hx, length_rowProducts .., fun r hr => ?_⟩
  have hrow := length_row hr hreads.length
  refine ⟨_, _, hreads.lookup r hr, canonicalDot_eq (Nat.le_of_eq hx.symm) (Nat.le_of_eq hrow.symm), ?_⟩
  unfold rowProducts
  rw [List.getElem?_map, List.getElem?_range hr, Option.map_some]

/-- Two rows of one Q4_K super-block. -/
theorem linear_reads_embedding_q4k :
    ∃ (table y e : List Float32), (⟨[256, 2], .q4_k, List.replicate 288 7, true⟩ : QuantTensor).decoded = .ok table ∧
      @linearDispatch Float32 _ .serial (List.replicate 256 F32.one)
        ⟨[256, 2], .q4_k, List.replicate 288 7, true⟩ 256 2 2 = .ok y ∧
      embeddingRow ⟨[256, 2], .q4_k, List.replicate 288 7, true⟩ 1 256 = .ok e ∧
      table.length = 512 ∧ y.length = 2 := by
  have hholds : QuantTensor.Holds ⟨[256, 2], .q4_k, List.replicate 288 7, true⟩ 256 2 :=
    ⟨⟨⟨256, 144, rfl, rfl, by rw [List.length_replicate]⟩, by rw [List.length_replicate]; decide,
      fun _ => rfl, by decide⟩, fun hdtype => nomatch hdtype⟩
  obtain ⟨htable, hlinear⟩ := @linear_reads_embedding Float32 _ _ _ _ hholds
  obtain ⟨table, hdecoded, hcount, -⟩ := htable (by decide)
  obtain ⟨y, hy, hlength, hrows⟩ := hlinear (by decide) .serial (List.replicate 256 F32.one) List.length_replicate
  obtain ⟨e, v, he, -, -⟩ := hrows 1 (by decide)
  exact ⟨table, y, e, hdecoded, hy, he, hcount, hlength⟩

/-- With rows of no elements, `2 ^ 61` outputs ask for more floats than fit in memory. -/
theorem linear_reads_embedding_limit :
    ¬∀ (t : QuantTensor) (inFeat outFeat : Nat), inFeat % 32 = 0 → t.dtype = .q8_0 → outFeat < 2 ^ 64 →
      t.bytes.length = outFeat * (inFeat / 32 * 34) → ∀ x : List Float32, x.length = inFeat →
        ∃ y, linearDispatch .serial x t inFeat outFeat 2 = .ok y := by
  intro hclaim
  obtain ⟨y, hy⟩ := hclaim ⟨[0, 2305843009213693952], .q8_0, [], true⟩ 0 (2 ^ 61) rfl rfl (by decide) rfl [] rfl
  have hfits := linearDispatch_fits hy
  omega

end VitniTensor
