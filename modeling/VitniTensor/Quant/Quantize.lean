import VitniTensor.Binary32
import VitniTensor.Quant.Decoded
import VitniTensor.Quant.Half
import VitniTensor.Quant.Integer

/-!
# Quantized weights

The writers of Q4_0 and Q8_0 blocks. What they write is decoded, in the order of the input, to the code of every number
times the scale as it is written.
-/

namespace VitniTensor

open Outcome

variable {F : Type} [F32 F]

/-! ### The writers -/

/-- `f32::abs` -/
def absOf (v : F) : F :=
  F32.ofBits (F32.toBits v &&& 0x7FFFFFFF)

/-- `amax` and `max_val`; the Q8_0 loop keeps the first alone. -/
def largest (block : List F) : F × F :=
  block.foldl (fun best v => if F32.lt best.1 (absOf v) then (absOf v, v) else best) (F32.zero, F32.zero)

/-- `inv_scale` -/
def inverseScale (scale : F) : F :=
  if F32.eq scale F32.zero then F32.zero else F32.div F32.one scale

/-- `data[b * 32..(b + 1) * 32]` for every `b`. -/
def blocksOf32 (data : List F) : List (Vector F 32) :=
  List.ofFn fun b : Fin (data.length / 32) => Vector.ofFn fun i : Fin 32 => data.get ⟨b * 32 + i, by omega⟩

/-- The shared frame of the quantizers: whole blocks only, each written on its own. -/
def quantize {size : Nat} (ragged : String) (encode : Vector F 32 → Vector UInt8 size) (data : List F) : Res (List UInt8) :=
  if data.length % 32 ≠ 0 then .error (.err (.internal ragged))
  else .ok (((blocksOf32 data).map encode).flatMap Vector.toList)

namespace Offset

/-- Byte `i` behind a scale, and the numbers that it holds. -/
theorem nibble_low (i : Fin 18) : 2 * (i.val - 2) < 32 := by omega
theorem nibble_high (i : Fin 18) : 2 * (i.val - 2) + 1 < 32 := by omega
theorem quant (i : Fin 34) : i.val - 2 < 32 := by omega

end Offset

def q4_0Scale (block : Vector F 32) : F :=
  -- over -8.0: the number of the largest magnitude keeps its sign and gets the outermost code
  F32.div (largest block.toList).2 (F32.ofBits 0xC1000000)

/-- A number in four bits, around 8. -/
def q4_0Code (inv v : F) : UInt8 :=
  -- adds 8.5, so that `as i32` rounds to the nearest of the codes above 0
  UInt8.ofNat (max 0 (min 15 (F32.toI32 (F32.add (F32.mul v inv) (F32.ofBits 0x41080000))))).toNat

def q4_0Block (block : Vector F 32) : Vector UInt8 18 :=
  let scale := q4_0Scale block
  -- the codes are taken with the scale before its rounding to a half
  let inv := inverseScale scale
  Vector.ofFn fun i => if i.val = 0 then lowByte (f32ToF16 scale) else if i.val = 1 then highByte (f32ToF16 scale)
    else q4_0Code inv (block.get ⟨2 * (i.val - 2), Offset.nibble_low i⟩) |||
      (q4_0Code inv (block.get ⟨2 * (i.val - 2) + 1, Offset.nibble_high i⟩) <<< 4)

def quantizeQ4_0 : List F → Res (List UInt8) :=
  quantize "Q4_0 quantize: input not a multiple of 32" q4_0Block

def q8_0Scale (block : Vector F 32) : F :=
  -- over 127.0
  F32.div (largest block.toList).1 (F32.ofBits 0x42FE0000)

def q8_0Block (block : Vector F 32) : Vector UInt8 34 :=
  let scale := q8_0Scale block
  let inv := inverseScale scale
  Vector.ofFn fun i => if i.val = 0 then lowByte (f32ToF16 scale) else if i.val = 1 then highByte (f32ToF16 scale)
    else (Int8.ofInt (q8Code inv (block.get ⟨i.val - 2, Offset.quant i⟩))).toUInt8

def quantizeQ8_0 : List F → Res (List UInt8) :=
  quantize "Q8_0 quantize: input not a multiple of 32" q8_0Block

/-! ### Codes -/

theorem q4_0Code_lt (inv v : F) : (q4_0Code inv v).toNat < 16 := by
  unfold q4_0Code
  rw [UInt8.toNat_ofNat']
  omega

theorem q8Code_bounds (inv v : F) : -127 ≤ q8Code inv v ∧ q8Code inv v ≤ 127 := by
  unfold q8Code
  dsimp only
  omega

/-- Element `i` of a written block, as it is decoded. -/
def q4_0Value (block : Vector F 32) (i : Fin 32) : F :=
  F32.mul (f16ToF32 (f32ToF16 (q4_0Scale block)))
    (F32.ofInt ((q4_0Code (inverseScale (q4_0Scale block)) block[i]).toNat - 8))

def q8_0Value (block : Vector F 32) (i : Fin 32) : F :=
  F32.mul (f16ToF32 (f32ToF16 (q8_0Scale block))) (F32.ofInt (q8Code (inverseScale (q8_0Scale block)) block[i]))

theorem q4_0Element_q4_0Block (block : Vector F 32) (i : Fin 32) :
    q4_0Element (q4_0Codes (q4_0Block block)) i = q4_0Value block i := by
  have hzero : ¬2 + i.val / 2 = 0 := by omega
  have hone : ¬2 + i.val / 2 = 1 := by omega
  have hpacked : ∀ v w : F, ((q4_0Code (inverseScale (q4_0Scale block)) v |||
      (q4_0Code (inverseScale (q4_0Scale block)) w <<< 4))).toNat =
        (q4_0Code (inverseScale (q4_0Scale block)) v).toNat + 16 * (q4_0Code (inverseScale (q4_0Scale block)) w).toNat :=
    fun v w => toNat_joined (q4_0Code_lt _ v) (q4_0Code_lt _ w)
  have hlow := q4_0Code_lt (inverseScale (q4_0Scale block))
  have hget : ∀ (k : Nat) (hk : k < 32), k = i.val → block.get ⟨k, hk⟩ = block[i] := by
    rintro k hk rfl
    rfl
  -- byte `2 + i / 2` holds the code: in its low half for an even `i`, in its high half for an odd one
  unfold q4_0Element q4_0Value q4_0Codes q4_0Block
  simp only [Vector.getElem_ofFn, hzero, hone, if_false]
  refine congrArg₂ F32.mul (congrArg f16ToF32 (u16Le_bytes _)) (congrArg F32.ofInt (congrArg (fun n : Nat => (n : Int) - 8) ?_))
  split
  next heven =>
    rw [lowCode_val, hpacked, hget _ _ (by omega)]
    have hcode := hlow block[i]
    omega
  next hodd =>
    rw [highCode_val, hpacked, hget (2 * _ + 1) _ (by omega)]
    have hcode := hlow (block.get ⟨2 * (2 + i.val / 2 - 2), by omega⟩)
    omega

theorem q8_0Element_q8_0Block (block : Vector F 32) (i : Fin 32) :
    q8_0Element (q8_0Codes (q8_0Block block)) i = q8_0Value block i := by
  have hzero : ¬2 + i.val = 0 := by omega
  have hone : ¬2 + i.val = 1 := by omega
  obtain ⟨hlow, hhigh⟩ := q8Code_bounds (inverseScale (q8_0Scale block)) block[i]
  unfold q8_0Element q8_0Value q8_0Codes q8_0Block
  simp only [Vector.getElem_ofFn, hzero, hone, if_false, Nat.add_sub_cancel_left]
  refine congrArg₂ F32.mul (congrArg f16ToF32 (u16Le_bytes _)) (congrArg F32.ofInt ?_)
  -- a code never meets -128, so the cast to `i8` keeps it
  rw [Int8.toInt8_toUInt8]
  exact Int8.toInt_ofInt_of_le (Int.le_trans (by decide) hlow) (Int.lt_of_le_of_lt hhigh (by decide))

/-! ### What is written is decoded -/

omit [F32 F] in
/-- Every written block is decoded where it was read. -/
theorem quantize_decodes {size : Nat} {Codes : Type} {codes : Vector UInt8 size → Codes} {element : Codes → Fin 32 → F}
    {decoded : List UInt8 → Res (List F)} (hreads : ReadsEveryBit codes element decoded)
    {encode : Vector F 32 → Vector UInt8 size} {value : Vector F 32 → Fin 32 → F}
    (hvalue : ∀ block i, element (codes (encode block)) i = value block i) (ragged : String) {data : List F}
    (hwhole : data.length % 32 = 0) (hslice : data.length * 4 < 2 ^ 63) :
    ∃ bytes out, quantize ragged encode data = .ok bytes ∧ bytes.length = data.length / 32 * size ∧
      decoded bytes = .ok out ∧ out.length = data.length ∧
      ∀ b (hb : b < (blocksOf32 data).length) (i : Fin 32), out[b * 32 + i.val]? = some (value (blocksOf32 data)[b] i) := by
  have hcount : (blocksOf32 data).length = data.length / 32 := List.length_ofFn
  -- the decoder reads block `b` back as the one that was written there
  obtain ⟨out, hout, hlength, helements⟩ := hreads.outputs ((blocksOf32 data).map encode)
    (by rw [List.length_map, hcount]; omega)
  rw [List.length_map, hcount] at hlength
  refine ⟨_, out, if_neg (not_not_intro hwhole), ?_, hout, by omega, fun b hb i => ?_⟩
  · rw [length_flatMap_toList, List.length_map, hcount]
  · rw [helements b (by rwa [List.length_map]) i, List.getElem_map, hvalue]

/-- **What the quantizers write is decoded in place**: a slice of whole blocks is written without an error, to 18 or 34
bytes a block, and decodes to as many numbers, each of them the code of its number times the written scale of its block. -/
theorem quantizers_decode {data : List F} (hwhole : data.length % 32 = 0) (hslice : data.length * 4 < 2 ^ 63) :
    (∃ bytes out, quantizeQ4_0 data = .ok bytes ∧ bytes.length = data.length / 32 * 18 ∧
      dequantizeQ4_0 bytes = .ok out ∧ out.length = data.length ∧
      ∀ b (hb : b < (blocksOf32 data).length) (i : Fin 32),
        out[b * 32 + i.val]? = some (q4_0Value (blocksOf32 data)[b] i)) ∧
      ∃ bytes out, quantizeQ8_0 data = .ok bytes ∧ bytes.length = data.length / 32 * 34 ∧
        dequantizeQ8_0 bytes = .ok out ∧ out.length = data.length ∧
        ∀ b (hb : b < (blocksOf32 data).length) (i : Fin 32),
          out[b * 32 + i.val]? = some (q8_0Value (blocksOf32 data)[b] i) :=
  ⟨quantize_decodes (readsEveryBit (by decide) _ q4_0Codes_bijective length_q4_0Weights q4_0Weights_element)
      q4_0Element_q4_0Block _ hwhole hslice,
    quantize_decodes (readsEveryBit (by decide) _ q8_0Codes_bijective length_q8_0Weights q8_0Weights_element)
      q8_0Element_q8_0Block _ hwhole hslice⟩

/-- Two blocks of numbers of both signs, `1.0` and above. -/
def twoBlocks : List Binary32 :=
  (List.range 64).map fun i => ⟨UInt32.ofNat (if i % 3 = 0 then 0x3F800000 + i * 0x8000 else 0xBF800000 + i * 0x8000)⟩

theorem quantizers_decode_twoBlocks :
    (∃ bytes out, quantizeQ4_0 twoBlocks = .ok bytes ∧ bytes.length = twoBlocks.length / 32 * 18 ∧
      dequantizeQ4_0 bytes = .ok out ∧ out.length = twoBlocks.length ∧
      ∀ b (hb : b < (blocksOf32 twoBlocks).length) (i : Fin 32),
        out[b * 32 + i.val]? = some (q4_0Value (blocksOf32 twoBlocks)[b] i)) ∧
      ∃ bytes out, quantizeQ8_0 twoBlocks = .ok bytes ∧ bytes.length = twoBlocks.length / 32 * 34 ∧
        dequantizeQ8_0 bytes = .ok out ∧ out.length = twoBlocks.length ∧
        ∀ b (hb : b < (blocksOf32 twoBlocks).length) (i : Fin 32),
          out[b * 32 + i.val]? = some (q8_0Value (blocksOf32 twoBlocks)[b] i) :=
  quantizers_decode (by decide) (by decide)

end VitniTensor
