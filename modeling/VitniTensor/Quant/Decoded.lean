import VitniTensor.Lib.Rows
import VitniTensor.Quant.Codes

/-!
# Decoded blocks

What a decoder makes of a block's codes. Element `i` of block `b` is a function of the codes of block
`b` alone, and stands at its own place of the output.
-/

namespace VitniTensor

open Outcome Rows

variable {F : Type} [F32 F]

/-! ### Elements -/

def q4_0Element (c : UInt16 × (Fin 32 → Fin 16)) (i : Fin 32) : F :=
  F32.mul (f16ToF32 c.1) (F32.ofInt ((c.2 i).val - 8))

def q5_0Element (c : UInt16 × (Fin 32 → Fin 32)) (i : Fin 32) : F :=
  F32.mul (f16ToF32 c.1) (F32.ofInt ((c.2 i).val - 16))

def q8_0Element (c : UInt16 × (Fin 32 → Int8)) (i : Fin 32) : F :=
  F32.mul (f16ToF32 c.1) (F32.ofInt (c.2 i).toInt)

namespace Q4kCodes

variable (c : Q4kCodes) (i : Fin 256)

/-- The 6-bit scale, the 6-bit minimum and the 4-bit code of element `i`. -/
def scale : Int := ((c.2.2.1 ⟨i.val / 32, by omega⟩).1.val : Int)
def min : Int := ((c.2.2.1 ⟨i.val / 32, by omega⟩).2.val : Int)
def code : Int := ((c.2.2.2 i).val : Int)

def element : F :=
  F32.sub (F32.mul (F32.mul (f16ToF32 c.1) (F32.ofInt (c.scale i))) (F32.ofInt (c.code i)))
    (F32.mul (f16ToF32 c.2.1) (F32.ofInt (c.min i)))

end Q4kCodes

namespace Q6kCodes

variable (c : Q6kCodes) (i : Fin 256)

/-- The `i8` scale and the 6-bit code of element `i`. -/
def scale : Int := (c.2.1 ⟨i.val / 16, by omega⟩).toInt
def code : Int := ((c.2.2 i).val : Int)

def element : F :=
  F32.mul (F32.mul (f16ToF32 c.1) (F32.ofInt (c.scale i))) (F32.ofInt (c.code i - 32))

end Q6kCodes

/-- Element `i` of each decoder is made of the codes. -/
theorem q4_0Weights_element (block : Vector UInt8 18) (i : Fin 32) :
    (q4_0Weights block : List F)[i.val]? = some (q4_0Element (q4_0Codes block) i) := by
  have hsplit : i.val = i.val / 2 * 2 + i.val % 2 := by omega
  have hrange : i.val / 2 < 16 := by omega
  unfold q4_0Weights q4_0Element q4_0Codes
  dsimp only
  conv_lhs => rw [hsplit]
  rw [getElem?_flatMap (w := 2) (fun _ => rfl) _ _ (Nat.mod_lt _ (by decide)), getElem?_finRange hrange,
    Option.bind_some]
  rcases Nat.mod_two_eq_zero_or_one i.val with h | h
  · rw [h]
    rfl
  · rw [h]
    rfl

theorem q5_0Weights_element (block : Vector UInt8 22) (i : Fin 32) :
    (q5_0Weights block : List F)[i.val]? = some (q5_0Element (q5_0Codes block) i) := by
  unfold q5_0Weights q5_0Element q5_0Codes q5_0Raw
  dsimp only
  by_cases h : i.val < 16
  · rw [List.getElem?_append_left (by simpa using h), List.getElem?_map, getElem?_finRange h, dif_pos h]
    rfl
  · have hrange : i.val - 16 < 16 := by omega
    rw [List.getElem?_append_right (by simpa using Nat.le_of_not_lt h), List.length_map, List.length_finRange,
      List.getElem?_map, getElem?_finRange hrange, dif_neg h]
    rfl

theorem q8_0Weights_element (block : Vector UInt8 34) (i : Fin 32) :
    (q8_0Weights block : List F)[i.val]? = some (q8_0Element (q8_0Codes block) i) := by
  unfold q8_0Weights q8_0Element q8_0Codes
  dsimp only
  rw [List.getElem?_map, getElem?_finRange i.isLt]
  rfl

theorem q4kWeights_element (block : Vector UInt8 144) (i : Fin 256) :
    (q4kWeights block : List F)[i.val]? = some ((q4kCodes block).element i) := by
  have hsplit : i.val = i.val / 64 * 64 + i.val % 64 := by omega
  have hturn : i.val / 64 < 4 := by omega
  unfold q4kWeights Q4kCodes.element Q4kCodes.scale Q4kCodes.min Q4kCodes.code q4kCodes scalePairs q4kNibble
  dsimp only
  conv_lhs => rw [hsplit]
  rw [getElem?_flatMap (by simp) _ _ (Nat.mod_lt _ (by decide)), getElem?_finRange hturn, Option.bind_some]
  dsimp only
  by_cases h : i.val % 64 < 32
  · have hpair : 2 * (i.val / 64) = i.val / 32 := by omega
    have hplace : i.val % 64 = i.val % 32 := by omega
    rw [List.getElem?_append_left (by simpa using h), List.getElem?_map, getElem?_finRange h, if_pos h]
    simp only [Option.map_some, hpair, hplace]
    rfl
  · have hpair : 2 * (i.val / 64) + 1 = i.val / 32 := by omega
    have hplace : i.val % 64 - 32 = i.val % 32 := by omega
    have hrange : i.val % 64 - 32 < 32 := by omega
    rw [List.getElem?_append_right (by simpa using Nat.le_of_not_lt h), List.length_map, List.length_finRange,
      List.getElem?_map, getElem?_finRange hrange, if_neg h]
    simp only [Option.map_some, hpair, hplace]
    rfl

theorem q6kWeights_element (block : Vector UInt8 210) (i : Fin 256) :
    (q6kWeights block : List F)[i.val]? = some ((q6kCodes block).element i) := by
  have hsplit : i.val = i.val / 128 * 128 + (i.val / 32 % 4 * 32 + i.val % 32) := by omega
  have hhalf : i.val / 128 < 2 := by omega
  have hquarter : i.val / 32 % 4 < 4 := by omega
  have hplace : i.val % 32 < 32 := by omega
  have hscale : 8 * (i.val / 128) + (i.val % 32 / 16 + 2 * (i.val / 32 % 4)) = i.val / 16 := by omega
  have hbounds := q6kCode_bounds block ⟨i.val / 128, hhalf⟩ ⟨i.val / 32 % 4, hquarter⟩ ⟨i.val % 32, hplace⟩
  have hcode : (((q6kRaw block i).val : Nat) : Int) - 32 =
      q6kCode block ⟨i.val / 128, hhalf⟩ ⟨i.val / 32 % 4, hquarter⟩ ⟨i.val % 32, hplace⟩ := by
    unfold q6kRaw
    dsimp only
    omega
  unfold q6kWeights Q6kCodes.element Q6kCodes.scale Q6kCodes.code q6kCodes
  dsimp only
  rw [hcode]
  conv_lhs => rw [hsplit]
  rw [getElem?_flatMap (by simp [List.length_flatMap]) _ _ (by omega), getElem?_finRange hhalf, Option.bind_some,
    getElem?_flatMap (by simp) _ _ hplace, getElem?_finRange hquarter, Option.bind_some, List.getElem?_map,
    getElem?_finRange hplace, Option.map_some]
  unfold q6kScale
  simp only [hscale]
  rfl

/-! ### Lists of blocks -/

omit [F32 F] in
private theorem length_toList {size : Nat} (b : Vector UInt8 size) : b.toList.length = size :=
  Vector.length_toList

omit [F32 F] in
theorem length_flatMap_toList {size : Nat} (blocks : List (Vector UInt8 size)) :
    (blocks.flatMap Vector.toList).length = blocks.length * size := by
  rw [List.length_flatMap, List.map_congr_left fun b _ => length_toList b, List.map_const', List.sum_replicate_nat]

omit [F32 F] in
/-- The blocks of a payload that is made of them. -/
theorem blocksOf_flatMap {size : Nat} (hsize : 0 < size) (blocks : List (Vector UInt8 size)) :
    blocksOf size (blocks.flatMap Vector.toList) = blocks := by
  refine List.ext_getElem ?_ fun b hb hb' => Vector.ext fun i hi => ?_
  · rw [length_blocksOf, length_flatMap_toList, Nat.mul_div_cancel _ hsize]
  · have hget := getElem?_flatMap length_toList blocks b hi
    rw [List.getElem?_eq_getElem hb', Option.bind_some, Vector.getElem?_toList, Vector.getElem?_eq_getElem hi] at hget
    simp only [blocksOf, List.getElem_ofFn, Vector.getElem_ofFn]
    exact Option.some.inj ((List.getElem?_eq_getElem _).symm.trans hget)

/-- A decoder of blocks of `numel` weights that reads every payload bit once: its blocks are their
codes, and element `i` of block `b`, which depends on the codes of that block alone, is at
`b * numel + i`. Blocks whose floats fit no vector are refused. -/
structure ReadsEveryBit {size numel : Nat} {Codes : Type} (codes : Vector UInt8 size → Codes)
    (element : Codes → Fin numel → F) (dequantize : List UInt8 → Res (List F)) : Prop where
  bijective : Function.Bijective codes
  outputs : ∀ blocks : List (Vector UInt8 size), blocks.length * numel * 4 < 2 ^ 63 →
    ∃ out, dequantize (blocks.flatMap Vector.toList) = .ok out ∧ out.length = blocks.length * numel ∧
      ∀ b (hb : b < blocks.length) (i : Fin numel), out[b * numel + i.val]? = some (element (codes blocks[b]) i)
  refused : ∀ blocks : List (Vector UInt8 size), 2 ^ 63 ≤ blocks.length * numel * 4 →
    dequantize (blocks.flatMap Vector.toList) = .error (.panic .capacityOverflow)

theorem readsEveryBit {size numel : Nat} {Codes : Type} (hsize : 0 < size) {codes : Vector UInt8 size → Codes}
    {element : Codes → Fin numel → F} {decode : Vector UInt8 size → List F} (ragged : String)
    (hbijective : Function.Bijective codes) (hlength : ∀ block, (decode block).length = numel)
    (helement : ∀ block i, (decode block)[i.val]? = some (element (codes block) i)) :
    ReadsEveryBit codes element (dequantize size numel ragged decode) := by
  have hwhole : ∀ blocks : List (Vector UInt8 size), (blocks.flatMap Vector.toList).length % size = 0 ∧
      (blocks.flatMap Vector.toList).length / size = blocks.length := fun blocks => by
    rw [length_flatMap_toList, Nat.mul_mod_left, Nat.mul_div_cancel _ hsize]
    exact ⟨rfl, rfl⟩
  refine ⟨hbijective, fun blocks hmemory => ⟨blocks.flatMap decode, ?_, ?_, fun b hb i => ?_⟩, fun blocks hlarge => ?_⟩
  · rw [dequantize_eq (hwhole blocks).1 (by rwa [(hwhole blocks).2]), blocksOf_flatMap hsize]
  · rw [List.length_flatMap, List.map_congr_left fun b _ => hlength b, List.map_const', List.sum_replicate_nat]
  · rw [getElem?_flatMap hlength _ _ i.isLt, List.getElem?_eq_getElem hb, Option.bind_some, helement]
  · exact dequantize_large (hwhole blocks).1 (by rwa [(hwhole blocks).2])

/-- Every decoder reads every payload bit once. -/
theorem decoders_read_every_bit :
    ReadsEveryBit q4_0Codes (q4_0Element (F := F)) dequantizeQ4_0 ∧
      ReadsEveryBit q5_0Codes (q5_0Element (F := F)) dequantizeQ5_0 ∧
      ReadsEveryBit q8_0Codes (q8_0Element (F := F)) dequantizeQ8_0 ∧
      ReadsEveryBit q4kCodes (Q4kCodes.element (F := F)) dequantizeQ4K ∧
      ReadsEveryBit q6kCodes (Q6kCodes.element (F := F)) dequantizeQ6K :=
  ⟨readsEveryBit (by decide) _ q4_0Codes_bijective length_q4_0Weights q4_0Weights_element,
    readsEveryBit (by decide) _ q5_0Codes_bijective length_q5_0Weights q5_0Weights_element,
    readsEveryBit (by decide) _ q8_0Codes_bijective length_q8_0Weights q8_0Weights_element,
    readsEveryBit (by decide) _ q4kCodes_bijective length_q4kWeights q4kWeights_element,
    readsEveryBit (by decide) _ q6kCodes_bijective length_q6kWeights q6kWeights_element⟩

/-- `2 ^ 56` blocks of four bits are a slice of about `2 ^ 60` bytes, and have no output range. -/
theorem decoders_limit :
    ¬∀ blocks : List (Vector UInt8 18), (blocks.flatMap Vector.toList).length < 2 ^ 63 →
      ∃ out, (dequantizeQ4_0 (blocks.flatMap Vector.toList) : Res (List Float32)) = .ok out := by
  intro hclaim
  -- the number stays a variable, so that nothing is computed
  obtain ⟨n, hn⟩ : ∃ n : Nat, n = 2 ^ 56 := ⟨_, rfl⟩
  have hlength : ((List.replicate n (Vector.replicate 18 (0 : UInt8))).flatMap Vector.toList).length = n * 18 := by
    rw [length_flatMap_toList, List.length_replicate]
  obtain ⟨out, hout⟩ := hclaim (List.replicate n (Vector.replicate 18 0)) (by omega)
  rw [dequantizeQ4_0, dequantize_large (by omega) (by omega)] at hout
  cases hout

end VitniTensor
