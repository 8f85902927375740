import VitniTensor.Gguf.Loaded
import VitniTensor.Tensor.Basic

/-!
# Block sizes

The geometry of the block formats is written out in the dtype helpers, in the sizes of a model file
and in the decoders. The three agree on whole blocks. `block_numel` does not know the k-quants: it
says 1 for them, and an element count that it allows need not be whole blocks. And a slice of blocks may
have more elements than a vector holds.
-/

namespace VitniTensor

open Outcome

namespace DType

def isBlockQuantized : DType → Bool
  | q4_0 | q8_0 | q4_k | q6_k => true
  | _ => false

/-- Block size in elements. Only two of the block formats are listed. -/
def blockNumel : DType → Nat
  | q4_0 => 32
  | q8_0 => 32
  | _ => 1

/-- The tag of the same format in a model file. -/
def ggufType : DType → Option GgufTensorType
  | f32 => some .f32
  | f16 => some .f16
  | q4_0 => some .q4_0
  | q8_0 => some .q8_0
  | q4_k => some .q4_k
  | q6_k => some .q6_k
  | bf16 | u32 | i64 => none

/-- The elements of one block, as `bytes_for_numel` divides by them. -/
def wholeBlock : DType → Nat
  | q4_k | q6_k => 256
  | d => d.blockNumel

/-- What the tables say about `a` elements, and about `b` more. -/
structure TablesAgree (F : Type) [F32 F] (d : DType) (a b : Nat) : Prop where
  additive : ∃ x y, d.bytesForNumel a = .ok x ∧ d.bytesForNumel b = .ok y ∧ d.bytesForNumel (a + b) = .ok (x + y)
  file : ∃ ty n, d.ggufType = some ty ∧ d.bytesForNumel a = .ok n ∧ ty.bytesForNumel a = .ok n
  decoded : ∃ ty n decode, d.ggufType = some ty ∧ d.bytesForNumel a = .ok n ∧ ty.dequantizer F = some decode ∧
    ∀ bytes : List UInt8, bytes.length = n → bytes.length < 2 ^ 63 → ∃ out, decode bytes = .ok out ∧ out.length = a

variable {F : Type} [F32 F] {d : DType}

/-- A block format stores whole blocks, and a model file stores the same. -/
theorem block_eq (hd : d.isBlockQuantized) : ∃ ty size decode, d.ggufType = some ty ∧ ty.block = some (d.wholeBlock, size) ∧
    ty.dequantizer F = some decode ∧ (∀ numel, d.bytesOf numel = numel / d.wholeBlock * size) ∧
      ∀ numel n, ty.bytesForNumel numel = .ok n → numel % d.wholeBlock = 0 := by
  cases d with
  | f32 | f16 | bf16 | u32 | i64 => cases hd
  | _ =>
    refine ⟨_, _, _, rfl, rfl, rfl, fun _ => rfl, fun numel n hn => ?_⟩
    obtain ⟨per, size, hblock, hwhole, -⟩ := VitniTensor.bytesForNumel_ok hn
    cases hblock
    exact hwhole

theorem wholeBlock_pos (d : DType) : 0 < d.wholeBlock := by
  cases d <;> decide

/-- For every block format and all counts that `block_numel` divides: the tables agree exactly if the first
count is whole blocks, which is a condition for the k-quants only, and its floats fit a vector where its bytes
are a slice. -/
theorem tablesAgree_iff (d : DType) (a b : Nat) (hd : d.isBlockQuantized) (ha : d.blockNumel ∣ a) (hb : d.blockNumel ∣ b)
    (hfits : d.bytesOf (a + b) < 2 ^ 64) :
    d.TablesAgree F a b ↔ (d = q4_k ∨ d = q6_k → 256 ∣ a) ∧ (d.bytesOf a < 2 ^ 63 → a * 4 < 2 ^ 63) := by
  obtain ⟨ty, size, decode, htype, hblock, hdecode, hbytes, hwhole⟩ := @block_eq F _ d hd
  constructor
  · rintro h
    obtain ⟨ty', n, htype', hsize, hn⟩ := h.file
    cases htype.symm.trans htype'
    have hmod := hwhole a n hn
    obtain ⟨-, rfl⟩ := word_eq_ok.mp hsize
    constructor
    · rintro hk
      apply Nat.dvd_of_mod_eq_zero
      rcases hk with rfl | rfl <;> exact hmod
    · intro hslice
      obtain ⟨ty', n, decode', htype', hsize, hdecode', hall⟩ := h.decoded
      cases htype.symm.trans htype'
      cases hdecode.symm.trans hdecode'
      obtain ⟨-, rfl⟩ := word_eq_ok.mp hsize
      -- were the floats too many, the decoder would refuse bytes that it has to take
      by_contra hlarge
      have hlength : (List.replicate (d.bytesOf a) (0 : UInt8)).length = d.bytesOf a := List.length_replicate
      obtain ⟨out, hout, -⟩ := hall _ hlength (by rwa [hlength])
      rw [(GgufTensorType.dequantizer_whole hdecode hblock hmod (by rw [hlength, hbytes])).2 (by omega)] at hout
      cases hout
  · rintro ⟨h, hmemory⟩
    have hdvd : d.wholeBlock ∣ a := by
      cases d with
      | q4_k => exact h (.inl rfl)
      | q6_k => exact h (.inr rfl)
      | _ => exact ha
    have hmod := Nat.mod_eq_zero_of_dvd hdvd
    have hsum : d.bytesOf (a + b) = d.bytesOf a + d.bytesOf b := by
      obtain ⟨k, rfl⟩ := hdvd
      rw [hbytes, hbytes, hbytes, Nat.mul_add_div d.wholeBlock_pos, Nat.mul_div_cancel_left k d.wholeBlock_pos,
        Nat.add_mul]
    have hword : ∀ {n : Nat}, d.bytesOf n ≤ d.bytesOf (a + b) → d.bytesForNumel n = .ok (d.bytesOf n) :=
      fun hle => word_of_lt (Nat.lt_of_le_of_lt hle hfits)
    have hfile : ty.bytesForNumel a = .ok (d.bytesOf a) := by
      rw [hbytes]
      apply GgufFile.bytesForNumel_eq hblock hmod
      rw [← hbytes]
      omega
    constructor
    · exact ⟨_, _, hword (by omega), hword (by omega), by rw [hword (Nat.le_refl _), hsum]⟩
    · exact ⟨ty, _, htype, hword (by omega), hfile⟩
    · refine ⟨ty, _, decode, htype, hword (by omega), hdecode, fun bytes hlength hslice => ?_⟩
      exact (GgufTensorType.dequantizer_whole hdecode hblock hmod (by rw [hlength, hbytes])).1
        (hmemory (by rwa [hlength] at hslice))

theorem tablesAgree_q6_k : q6_k.TablesAgree Float32 256 1 :=
  (tablesAgree_iff q6_k 256 1 (by decide) (by decide) (by decide) (by decide)).mpr
    ⟨fun _ => Nat.dvd_refl 256, fun _ => by decide⟩

/-- One element and 255 more of Q4_K: `block_numel` allows them, 256 elements have 144 bytes, and neither
part has any. -/
theorem tables_disagree :
    q4_k.isBlockQuantized ∧ q4_k.blockNumel ∣ 1 ∧ q4_k.blockNumel ∣ 255 ∧ q4_k.bytesForNumel (1 + 255) = .ok 144 ∧
      q4_k.bytesForNumel 1 = .ok 0 ∧ q4_k.bytesForNumel 255 = .ok 0 ∧ ¬q4_k.TablesAgree Float32 1 255 := by
  refine ⟨by decide, by decide, by decide, by decide, by decide, by decide, fun h => ?_⟩
  obtain ⟨x, y, hx, hy, hsum⟩ := h.additive
  have hx' : q4_k.bytesForNumel 1 = .ok 0 := by decide
  have hy' : q4_k.bytesForNumel 255 = .ok 0 := by decide
  have hsum' : q4_k.bytesForNumel (1 + 255) = .ok 144 := by decide
  cases hx.symm.trans hx'
  cases hy.symm.trans hy'
  cases hsum.symm.trans hsum'

end DType

end VitniTensor
