import VitniTensor.Binary32
import VitniTensor.Model.Products
import VitniTensor.Model.Sizes
import VitniTensor.Quant.Unpack

/-!
# The reference linears

`linear_q4_k_cpu` and `linear_q6_k_cpu` decode a whole matrix before they reduce its rows. The fused linears decode
one super-block at a time and write the same output.
-/

namespace VitniTensor

open Outcome Fill Rows

variable {F : Type} [F32 F]

/-! ### The linears -/

/-- The checks, the decoding and the loops of a reference linear. -/
def linearReference (xShape yShape wShape : String) (decoded : Res (List F)) (x y : List F) (batch inFeat outFeat : Nat) :
    Res (List F) := do
  let xLen ← word (batch * inFeat)
  if x.length ≠ xLen then .error (.err (.internal xShape))
  else do
    let yLen ← word (batch * outFeat)
    if y.length ≠ yLen then .error (.err (.internal yShape))
    else do
      let wF32 ← decoded
      let wLen ← word (outFeat * inFeat)
      if wF32.length ≠ wLen then .error (.err (.internal wShape))
      else linearRows inFeat pure (fun xRow wRow => canonicalDot xRow wRow inFeat) x wF32 y batch inFeat outFeat

def linearQ4KCpu (x : List F) (w : List UInt8) (y : List F) (batch inFeat outFeat : Nat) : Res (List F) :=
  linearReference "linear_q4_k_cpu: x shape mismatch" "linear_q4_k_cpu: y shape mismatch"
    "linear_q4_k_cpu: weight shape mismatch" (dequantizeQ4K w) x y batch inFeat outFeat

def linearQ6KCpu (x : List F) (w : List UInt8) (y : List F) (batch inFeat outFeat : Nat) : Res (List F) :=
  linearReference "linear_q6_k_cpu: x shape mismatch" "linear_q6_k_cpu: y shape mismatch"
    "linear_q6_k_cpu: weight shape mismatch" (dequantizeQ6K w) x y batch inFeat outFeat

/-! ### When the reference gives an output -/

section Reference

variable {xShape yShape wShape : String} {decoded : Res (List F)} {x y y' : List F} {batch inFeat outFeat : Nat}

theorem linearReference_eq_ok :
    linearReference xShape yShape wShape decoded x y batch inFeat outFeat = .ok y' ↔
      (batch * inFeat < wordSize ∧ x.length = batch * inFeat) ∧ (batch * outFeat < wordSize ∧ y.length = batch * outFeat) ∧
        ∃ wF32, decoded = .ok wF32 ∧ (outFeat * inFeat < wordSize ∧ wF32.length = outFeat * inFeat) ∧
          linearRows inFeat pure (fun xRow wRow => canonicalDot xRow wRow inFeat) x wF32 y batch inFeat outFeat = .ok y' := by
  constructor
  -- the checks in the order of the source, the decoding after the two of the vectors
  · intro h
    obtain ⟨xLen, hxLen, h⟩ := bind_eq_ok.mp h
    obtain ⟨hxWord, rfl⟩ := word_eq_ok.mp hxLen
    split at h
    next => cases h
    next hx =>
      obtain ⟨yLen, hyLen, h⟩ := bind_eq_ok.mp h
      obtain ⟨hyWord, rfl⟩ := word_eq_ok.mp hyLen
      split at h
      next => cases h
      next hy =>
        obtain ⟨wF32, hdecoded, h⟩ := bind_eq_ok.mp h
        obtain ⟨wLen, hwLen, h⟩ := bind_eq_ok.mp h
        obtain ⟨hwWord, rfl⟩ := word_eq_ok.mp hwLen
        split at h
        next => cases h
        next hw => exact ⟨⟨hxWord, not_not.mp hx⟩, ⟨hyWord, not_not.mp hy⟩, wF32, hdecoded, ⟨hwWord, not_not.mp hw⟩, h⟩
  · rintro ⟨⟨hxWord, hx⟩, ⟨hyWord, hy⟩, wF32, rfl, ⟨hwWord, hw⟩, hrows⟩
    unfold linearReference
    rw [word_of_lt hxWord, ok_bind, if_neg (not_not_intro hx), word_of_lt hyWord, ok_bind, if_neg (not_not_intro hy), ok_bind,
      word_of_lt hwWord, ok_bind, if_neg (not_not_intro hw)]
    exact hrows

end Reference

/-! ### Fused and materialized rows -/

section Fused

variable {size n k : Nat} {decode : Vector UInt8 size → List F} {kernel : List F → List UInt8 → Nat → Res F}
  {x y : List F} {w : List UInt8}

/-- A row kernel that returns the dot product with the decoded row. -/
def ReducesDecoded (decode : Vector UInt8 size → List F) (kernel : List F → List UInt8 → Nat → Res F) : Prop :=
  ∀ (k : Nat) (xRow : List F) (wRow : List UInt8), xRow.length = k * 256 → wRow.length = k * size →
    kernel xRow wRow (k * 256) = canonicalDot xRow ((blocksOf size wRow).flatMap decode) (k * 256)

theorem reducesDecoded_q4k : ReducesDecoded (F := F) q4kWeights canonicalDotQ4kFused :=
  fun _ _ _ hx hw => canonicalDotQ4kFused_eq (Nat.le_of_eq hx.symm) (by rw [hw, Nat.mul_mod_left])
    (by rw [hw, Nat.mul_div_cancel _ (by decide)])

theorem reducesDecoded_q6k : ReducesDecoded (F := F) q6kWeights q6kFusedF32Dot :=
  fun _ _ _ hx hw => q6kFusedF32Dot_eq (Nat.le_of_eq hx.symm) (by rw [hw, Nat.mul_mod_left])
    (by rw [hw, Nat.mul_div_cancel _ (by decide)])

/-- Row `o` of the bytes decodes to row `o` of the decoded matrix. -/
theorem rowAt_decoded (hsize : 0 < size) (hdecode : ∀ block, (decode block).length = 256)
    (hkernel : ReducesDecoded decode kernel) (hw : w.length = n * (k * size)) {xRow : List F} (hx : xRow.length = k * 256)
    {o : Nat} (ho : o < n) :
    rowAt (k * size) (fun wRow => kernel xRow wRow (k * 256)) w o =
      rowAt (k * 256) (fun wRow => canonicalDot xRow wRow (k * 256)) ((blocksOf size w).flatMap decode) o := by
  unfold rowAt
  rw [Nat.succ_mul, slice_eq_row ho hw, ok_bind, Nat.succ_mul, slice_eq_row ho (length_decoded hsize hdecode hw), ok_bind,
    ← decoded_row hsize hdecode hw ho]
  exact hkernel k xRow _ hx (length_row ho hw)

/-- The rows of all batches, fused and materialized. -/
theorem linearRows_decoded (hsize : 0 < size) (hdecode : ∀ block, (decode block).length = 256)
    (hkernel : ReducesDecoded decode kernel) (hw : w.length = n * (k * size)) (batch : Nat) :
    linearRows (k * size) pure (fun xRow wRow => kernel xRow wRow (k * 256)) x w y batch (k * 256) n =
      linearRows (k * 256) pure (fun xRow wRow => canonicalDot xRow wRow (k * 256)) x
        ((blocksOf size w).flatMap decode) y batch (k * 256) n := by
  have hbatch : ∀ b z,
      batchRows (k * size) pure (fun xRow wRow => kernel xRow wRow (k * 256)) x w (k * 256) n b z =
        batchRows (k * 256) pure (fun xRow wRow => canonicalDot xRow wRow (k * 256)) x
          ((blocksOf size w).flatMap decode) (k * 256) n b z := by
    intro b z
    unfold batchRows
    cases hslice : (slice x (b * (k * 256)) ((b + 1) * (k * 256)) : Res (List F)) with
    | error stop => rfl
    | ok xRow =>
      have hx : xRow.length = k * 256 := by
        rw [length_of_slice hslice, Nat.succ_mul, Nat.add_sub_cancel_left]
      -- the two loops over the outputs store the same number at every turn
      have hrows : ∀ o, 0 ≤ o → o < 0 + n →
          storeAt (rowAt (k * size) (fun wRow => kernel xRow wRow (k * 256)) w) (b * n) o =
            storeAt (rowAt (k * 256) (fun wRow => canonicalDot xRow wRow (k * 256)) ((blocksOf size w).flatMap decode))
              (b * n) o := by
        intro o _ ho
        funext z
        unfold storeAt
        rw [rowAt_decoded hsize hdecode hkernel hw hx (by omega)]
      show rowLoop (k * size) (fun wRow => kernel xRow wRow (k * 256)) w (b * n) n z =
        rowLoop (k * 256) (fun wRow => canonicalDot xRow wRow (k * 256)) ((blocksOf size w).flatMap decode) (b * n) n z
      exact congrFun (forFrom_ext hrows) z
  exact congrFun (forFrom_ext fun b _ _ => funext (hbatch b)) y

/-- A matrix decodes to the numbers of its rows exactly when it has the bytes of its rows and the numbers
fit in memory. -/
theorem decoded_rows (hsize : 0 < size) (hdecode : ∀ block, (decode block).length = 256) {ragged : String} {out : List F} :
    dequantize size 256 ragged decode w = .ok out ∧ out.length = n * (k * 256) ↔
      out = (blocksOf size w).flatMap decode ∧ w.length = n * (k * size) ∧ n * (k * 256) * 4 < 2 ^ 63 := by
  constructor
  · rintro ⟨hout, hlength⟩
    obtain ⟨hwhole, hmemory, rfl⟩ := dequantize_eq_ok hout
    rw [length_flatMap_blocksOf hdecode] at hlength
    have hblocks : w.length / size = n * k := by
      rw [← Nat.mul_assoc] at hlength
      omega
    refine ⟨rfl, ?_, by rwa [hlength] at hmemory⟩
    rw [← Nat.div_mul_cancel (Nat.dvd_of_mod_eq_zero hwhole), hblocks, Nat.mul_assoc]
  · rintro ⟨rfl, hw, hmemory⟩
    have hcount := length_decoded hsize hdecode hw
    refine ⟨dequantize_eq (by rw [hw, ← Nat.mul_assoc, Nat.mul_mod_left]) ?_, hcount⟩
    rwa [← length_flatMap_blocksOf hdecode, hcount]

/-- A reference linear, by the rows that its fused twin reduces. -/
theorem linearReference_iff (hsize : 0 < size) (hdecode : ∀ block, (decode block).length = 256)
    (hkernel : ReducesDecoded decode kernel) {xShape yShape wShape ragged : String} {y' : List F} {batch : Nat}
    (hx : x.length < 2 ^ 63) (hy : y.length < 2 ^ 63) :
    linearReference xShape yShape wShape (dequantize size 256 ragged decode w) x y batch (k * 256) n = .ok y' ↔
      x.length = batch * (k * 256) ∧ y.length = batch * n ∧ w.length = n * (k * size) ∧ n * (k * 256) * 4 < 2 ^ 63 ∧
        linearRows (k * size) pure (fun xRow wRow => kernel xRow wRow (k * 256)) x w y batch (k * 256) n = .ok y' := by
  rw [linearReference_eq_ok]
  constructor
  · rintro ⟨⟨-, hxLen⟩, ⟨-, hyLen⟩, wF32, hdecoded, ⟨-, hcount⟩, hrows⟩
    obtain ⟨rfl, hwLen, hmemory⟩ := (decoded_rows hsize hdecode).mp ⟨hdecoded, hcount⟩
    exact ⟨hxLen, hyLen, hwLen, hmemory, (linearRows_decoded hsize hdecode hkernel hwLen batch).trans hrows⟩
  · rintro ⟨hxLen, hyLen, hwLen, hmemory, hrows⟩
    have hback : dequantize size 256 ragged decode w = .ok ((blocksOf size w).flatMap decode) ∧
        ((blocksOf size w).flatMap decode).length = n * (k * 256) :=
      (decoded_rows hsize hdecode).mpr ⟨rfl, hwLen, hmemory⟩
    obtain ⟨hdecoded, hcount⟩ := hback
    rw [linearRows_decoded hsize hdecode hkernel hwLen batch] at hrows
    refine ⟨⟨?_, hxLen⟩, ⟨?_, hyLen⟩, _, hdecoded, ⟨lt_wordSize hmemory, hcount⟩, hrows⟩
    · rw [← hxLen]
      exact Nat.lt_trans hx (by decide)
    · rw [← hyLen]
      exact Nat.lt_trans hy (by decide)

end Fused

/-! ### The fused linears -/

section Linears

variable {x y y' : List F} {w : List UInt8} {batch inFeat outFeat : Nat}

/-- **The fused linears give the bits of the reference linears**: on rows of whole super-blocks, a reference linear gives
an output exactly where the three lengths are those of the shape, the decoded matrix fits in memory and its fused twin
gives the same output. -/
theorem reference_linears (hwhole : inFeat % 256 = 0) (hx : x.length < 2 ^ 63) (hw : w.length < 2 ^ 63)
    (hy : y.length < 2 ^ 63) :
    (linearQ4KCpu x w y batch inFeat outFeat = .ok y' ↔
      x.length = batch * inFeat ∧ y.length = batch * outFeat ∧ w.length = outFeat * (inFeat / 256 * 144) ∧
        outFeat * inFeat * 4 < 2 ^ 63 ∧ linearQ4KFused x w y batch inFeat outFeat = .ok y') ∧
      (linearQ6KCpu x w y batch inFeat outFeat = .ok y' ↔
        x.length = batch * inFeat ∧ y.length = batch * outFeat ∧ w.length = outFeat * (inFeat / 256 * 210) ∧
          outFeat * inFeat * 4 < 2 ^ 63 ∧ linearQ6KFused x w y batch inFeat outFeat = .ok y') := by
  obtain ⟨k, rfl⟩ := Nat.dvd_of_mod_eq_zero hwhole
  rw [Nat.mul_comm 256 k]
  have hblocks : k * 256 / 256 = k := Nat.mul_div_cancel k (by decide)
  constructor
  · unfold linearQ4KCpu linearQ4KFused dequantizeQ4K
    rw [if_neg (by omega), hblocks]
    exact linearReference_iff (by decide) length_q4kWeights reducesDecoded_q4k hx hy
  · unfold linearQ6KCpu linearQ6KFused dequantizeQ6K
    rw [hblocks, linearReference_iff (by decide) length_q6kWeights reducesDecoded_q6k hx hy]
    refine and_congr_right fun _ => and_congr_right fun _ => and_congr_right fun hwLen => and_congr_right fun _ => ?_
    -- the Q6_K linear checks the bytes of its rows itself
    have hchecked : checkRows "linear_q6_k_fused: in_feat not a multiple of 256"
        "linear_q6_k_fused: weight shape mismatch" (k * 210) (k * 256) outFeat w = .ok () := by
      unfold checkRows
      rw [if_neg (by omega), ← hwLen, word_of_lt (Nat.lt_trans hw (by decide)), ok_bind, if_neg (Nat.lt_irrefl _)]
      rfl
    simp only [hchecked, ok_bind]

/-- Bytes that differ from block to block. -/
def countingBytes (n : Nat) : List UInt8 :=
  (List.range n).map fun i => UInt8.ofNat (7 * i + 1)

/-- A batch of two against three rows of two super-blocks. -/
theorem reference_linears_rows :
    ∃ y', linearQ4KFused (risingRow 1024) (countingBytes 864) (risingRow 6) 2 512 3 = .ok y' ∧
      linearQ4KCpu (risingRow 1024) (countingBytes 864) (risingRow 6) 2 512 3 = .ok y' := by
  have hx : (risingRow 1024).length = 1024 := length_risingRow 1024
  have hw : (countingBytes 864).length = 864 := by rw [countingBytes, List.length_map, List.length_range]
  obtain ⟨y', hfused⟩ : ∃ y', linearQ4KFused (risingRow 1024) (countingBytes 864) (risingRow 6) 2 512 3 = .ok y' := by
    refine linearRows_total (by rw [hx]) rfl (by rw [hw]) (fun xRow _ => ⟨xRow, rfl⟩) fun xRow a wRow hxRow ha hwRow => ?_
    cases ha
    exact @canonicalDotQ4kFused_row _ _ _ _ 2 hxRow hwRow
  have hreference := (@reference_linears Binary32 _ (risingRow 1024) (risingRow 6) y' (countingBytes 864) 2 512 3 (by decide)
    (by rw [hx]; decide) (by rw [hw]; decide) (by decide)).1
  exact ⟨y', hfused, hreference.mpr ⟨hx, rfl, hw, by decide, hfused⟩⟩

end Linears

end VitniTensor
