import VitniTensor.Quant.Decoded

/-!
# The element order of Q4_0

GGML gives element `j` of a block the low nibble of payload byte `j` and element `j + 16` the high
one, and so does the Q5_0 decoder. The Q4_0 decoder puts the two nibbles of a byte side by side.
-/

namespace VitniTensor

open Outcome Rows

variable {F : Type} [F32 F]

/-! ### GGML's order -/

/-- The code of element `i` in a payload of 16 bytes. -/
def ggmlCode (payload : Fin 16 → UInt8) (i : Fin 32) : Fin 16 :=
  if h : i.val < 16 then lowCode (payload ⟨i.val, h⟩) else highCode (payload ⟨i.val - 16, by omega⟩)

def q4_0Payload (block : Vector UInt8 18) (j : Fin 16) : UInt8 :=
  getElem block (2 + j.val) (Offset.q4_0_payload j)

def q5_0Payload (block : Vector UInt8 22) (j : Fin 16) : UInt8 :=
  getElem block (6 + j.val) (Offset.q5_0_payload j)

/-- A Q4_0 block in GGML's order. -/
def ggmlQ4_0Weights (block : Vector UInt8 18) : List F :=
  (List.finRange 32).map (q4_0Element (u16Le (getElem block 0 Offset.q4_0_scale0) (getElem block 1 Offset.q4_0_scale1),
    ggmlCode (q4_0Payload block)))

/-- The Q5_0 decoder reads the low four bits of its codes in this order. -/
theorem q5_0Codes_low (block : Vector UInt8 22) (i : Fin 32) :
    ((q5_0Codes block).2 i).val % 16 = (ggmlCode (q5_0Payload block) i).val := by
  have hraw := toNat_q5_0Raw block i
  have hb := block[6 + i.val % 16].toNat_lt
  change (q5_0Raw block i).toNat % 16 = _
  rw [hraw, Nat.add_mul_mod_self_left]
  unfold ggmlCode q5_0Payload
  split
  next h =>
    have hmod : i.val % 16 = i.val := Nat.mod_eq_of_lt h
    simp only [hmod, lowCode_val]
    omega
  next h =>
    have hmod : i.val % 16 = i.val - 16 := by omega
    rw [highCode_val]
    simp only [hmod] at hb ⊢
    omega

/-! ### The order of the decoder -/

/-- The place in GGML's order of the code that the decoder gives element `i`: the five bits of `i`
rotated to the right. -/
def pairPlace (i : Fin 32) : Fin 32 :=
  ⟨i.val / 2 + 16 * (i.val % 2), by omega⟩

theorem q4_0Codes_place (block : Vector UInt8 18) (i : Fin 32) :
    (q4_0Codes block).2 i = ggmlCode (q4_0Payload block) (pairPlace i) := by
  have hi : i.val / 2 < 16 := by omega
  unfold q4_0Codes ggmlCode q4_0Payload pairPlace
  dsimp only
  split
  next h =>
    have hplace : i.val / 2 + 16 * (i.val % 2) = i.val / 2 := by omega
    simp only [hplace, hi, dif_pos]
  next h =>
    have hplace : i.val / 2 + 16 * (i.val % 2) = i.val / 2 + 16 := by omega
    have hnot : ¬i.val / 2 + 16 < 16 := by omega
    simp only [hplace, hnot, dif_neg, not_false_eq_true, Nat.add_sub_cancel]

/-- The decoded block as a map over its elements. -/
theorem q4_0Weights_eq (block : Vector UInt8 18) :
    (q4_0Weights block : List F) = (List.finRange 32).map (q4_0Element (q4_0Codes block)) := by
  apply List.ext_getElem?
  intro i
  by_cases hi : i < 32
  · rw [q4_0Weights_element block ⟨i, hi⟩, List.getElem?_map, getElem?_finRange hi]
    rfl
  · rw [List.getElem?_eq_none (by rw [length_q4_0Weights]; exact Nat.le_of_not_lt hi),
      List.getElem?_eq_none (by rw [List.length_map, List.length_finRange]; exact Nat.le_of_not_lt hi)]

/-- One block, for one arithmetic: the values of the codes must agree. -/
theorem q4_0Weights_ggml_iff (block : Vector UInt8 18) :
    (q4_0Weights block : List F) = ggmlQ4_0Weights block ↔
      ∀ i, (q4_0Element (q4_0Codes block) i : F) = q4_0Element
        (u16Le (getElem block 0 Offset.q4_0_scale0) (getElem block 1 Offset.q4_0_scale1), ggmlCode (q4_0Payload block)) i := by
  rw [q4_0Weights_eq, ggmlQ4_0Weights, List.map_inj_left]
  exact ⟨fun h i => h i (List.mem_finRange i), fun h i _ => h i⟩

/-! ### When the two orders agree -/

/-- The codes do not change where the five bits of the place are rotated: `code i = code (2i mod 31)`. -/
def ConstantOnRotations (code : Fin 32 → Fin 16) : Prop :=
  ∀ i : Fin 32, i.val < 31 → code i = code ⟨2 * i.val % 31, by omega⟩

theorem constantOnRotations_iff {code : Fin 32 → Fin 16} :
    ConstantOnRotations code ↔ ∀ i, code (pairPlace i) = code i := by
  constructor
  · intro h i
    by_cases hlast : i.val = 31
    · exact congrArg code (Fin.ext (by unfold pairPlace; dsimp only; omega))
    · have hplace : (pairPlace i).val < 31 := by
        unfold pairPlace
        dsimp only
        omega
      rw [h (pairPlace i) hplace]
      -- doubling rotates to the left
      exact congrArg code (Fin.ext (by unfold pairPlace; dsimp only; omega))
  · intro h i hi
    rw [← h ⟨2 * i.val % 31, by omega⟩]
    exact congrArg code (Fin.ext (by unfold pairPlace; dsimp only; omega))

/-- Integers, where every scale is one. -/
abbrev unscaledInts : F32 Int where
  ofBits _ := 1
  toBits _ := 0
  add := (· + ·)
  sub := (· - ·)
  mul := (· * ·)
  div x _ := x
  neg x := -x
  lt x y := x < y
  le x y := x ≤ y
  ofInt x := x
  toI32 x := x
  expf x := x
  powf x _ := x
  cosf x := x
  sinf x := x
  sqrtf x := x

/-- Here an element shows its code. -/
theorem q4_0Element_unscaledInts (c : UInt16 × (Fin 32 → Fin 16)) (i : Fin 32) :
    @q4_0Element Int unscaledInts c i = (c.2 i).val - 8 := by
  have hscale : @f16ToF32 Int unscaledInts c.1 = 1 := rfl
  unfold q4_0Element
  rw [hscale]
  exact one_mul _

/-- One block, for every arithmetic. -/
theorem q4_0Weights_ggml_iff_all (block : Vector UInt8 18) :
    (∀ (F : Type) [F32 F], (q4_0Weights block : List F) = ggmlQ4_0Weights block) ↔
      ConstantOnRotations (ggmlCode (q4_0Payload block)) := by
  rw [constantOnRotations_iff]
  constructor
  · intro h i
    have hint := (@q4_0Weights_ggml_iff Int unscaledInts block).mp (@h Int unscaledInts) i
    rw [q4_0Element_unscaledInts, q4_0Element_unscaledInts] at hint
    rw [← q4_0Codes_place]
    apply Fin.ext
    dsimp only at hint
    omega
  · intro h F _
    rw [q4_0Weights_ggml_iff]
    intro i
    unfold q4_0Element
    rw [q4_0Codes_place, h i]
    rfl

/-- For every byte string of whole blocks: the decoder gives GGML's order, whatever the arithmetic
does, exactly when its floats fit a vector and in every block the codes are constant on rotations. -/
theorem dequantizeQ4_0_ggml_iff {bytes : List UInt8} (hwhole : bytes.length % 18 = 0) :
    (∀ (F : Type) [F32 F], dequantizeQ4_0 bytes = .ok ((blocksOf 18 bytes).flatMap (ggmlQ4_0Weights (F := F)))) ↔
      bytes.length / 18 * 32 * 4 < 2 ^ 63 ∧
        ∀ block ∈ blocksOf 18 bytes, ConstantOnRotations (ggmlCode (q4_0Payload block)) := by
  have hggml : ∀ (F : Type) [F32 F] (block : Vector UInt8 18), (ggmlQ4_0Weights block : List F).length = 32 := by
    intro F _ block
    rw [ggmlQ4_0Weights, List.length_map, List.length_finRange]
  constructor
  · intro h
    refine ⟨(@dequantize_eq_ok Int unscaledInts _ _ _ _ _ _ (@h Int unscaledInts)).2.1, fun block hmem => ?_⟩
    rw [← q4_0Weights_ggml_iff_all]
    intro F _
    obtain ⟨-, -, hsame⟩ := dequantize_eq_ok (h F)
    exact flatMap_inj length_q4_0Weights (hggml F) hsame.symm block hmem
  · rintro ⟨hmemory, h⟩ F _
    rw [dequantizeQ4_0, dequantize_eq hwhole hmemory]
    congr 1
    apply List.flatMap_congr
    intro block hmem
    exact (q4_0Weights_ggml_iff_all block).mpr (h block hmem) F

/-- A block whose payload counts up from 0. -/
def countingBlock : List UInt8 :=
  [0x00, 0x3C] ++ (List.range 16).map UInt8.ofNat

theorem countingBlock_shuffled :
    @dequantizeQ4_0 Int unscaledInts countingBlock ≠
      .ok ((blocksOf 18 countingBlock).flatMap (@ggmlQ4_0Weights Int unscaledInts)) := by
  decide

instance (code : Fin 32 → Fin 16) : Decidable (ConstantOnRotations code) :=
  inferInstanceAs (Decidable (∀ i : Fin 32, i.val < 31 → code i = code ⟨2 * i.val % 31, by omega⟩))

/-- Where all codes are equal, so are the orders. -/
theorem zeros_ggml : @dequantizeQ4_0 Int unscaledInts (List.replicate 18 0) =
    .ok ((blocksOf 18 (List.replicate 18 0)).flatMap (@ggmlQ4_0Weights Int unscaledInts)) := by
  have hblocks : blocksOf 18 (List.replicate 18 0) = [Vector.replicate 18 0] := by decide
  have hall : ∀ block ∈ blocksOf 18 (List.replicate 18 0), ConstantOnRotations (ggmlCode (q4_0Payload block)) := by
    rw [hblocks]
    intro block hmem
    rw [List.mem_singleton.mp hmem]
    decide
  exact @Iff.mpr _ _ (dequantizeQ4_0_ggml_iff (by decide)) ⟨by decide, hall⟩ Int unscaledInts

end VitniTensor
