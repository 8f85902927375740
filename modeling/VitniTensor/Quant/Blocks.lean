import VitniTensor.Error
import VitniTensor.F32
import Mathlib.Data.List.OfFn

/-!
# Quantized blocks

The decoders of the block formats. A block is a vector of its exact size, so no payload byte
is read out of range, and a decoder lists its block's weights in the order in which the
source's loop fills `out[out_off..]`.
-/

namespace VitniTensor

open Outcome

variable {F : Type} [F32 F]

/-! ### Half floats -/

/-- The loop over a subnormal mantissa: double it until bit 10 is set. -/
def normalizeSubnormal : (rounds : Nat) → (m : UInt32) → (e : Int) → UInt32 × Int
  | 0, m, e => (m, e)
  | rounds + 1, m, e =>
    if m &&& 0x400 = 0 then normalizeSubnormal rounds (m <<< 1) (e - 1) else (m, e)

def f16ToF32 (half : UInt16) : F :=
  let sign := ((half >>> 15) &&& 0x1).toUInt32
  let exp := ((half >>> 10) &&& 0x1F).toUInt32
  let mant := (half &&& 0x3FF).toUInt32
  let bits : UInt32 :=
    if exp = 0 then
      if mant = 0 then sign <<< 31
      else
        -- a nonzero mantissa has its top bit among the low ten
        let (m, e) := normalizeSubnormal 10 mant 1
        (sign <<< 31) ||| (UInt32.ofNat (127 - 15 + e).toNat <<< 23) ||| ((m &&& 0x3FF) <<< 13)
    else if exp = 0x1F then (sign <<< 31) ||| (0x7F800000 : UInt32) ||| (mant <<< 13)
    else (sign <<< 31) ||| ((exp + 127 - 15) <<< 23) ||| (mant <<< 13)
  F32.ofBits bits

/-- Below `0x800`, the test of bit 10 compares with `0x400`. -/
theorem bit10_eq_zero_iff {m : UInt32} (hm : m.toNat < 0x800) : m &&& 0x400 = 0 ↔ m.toNat < 0x400 := by
  rw [← UInt32.toNat_inj, UInt32.toNat_and]
  change m.toNat &&& 2 ^ 10 = 0 ↔ m.toNat < 2 ^ 10
  constructor
  · intro hzero
    have hbit : (m.toNat &&& 2 ^ 10).testBit 10 = false := by rw [hzero, Nat.zero_testBit]
    rw [Nat.testBit_and, Nat.testBit_two_pow_self, Bool.and_true, Nat.testBit_eq_decide_div_mod_eq,
      decide_eq_false_iff_not] at hbit
    omega
  · intro hlow
    apply Nat.eq_of_testBit_eq
    intro i
    rw [Nat.testBit_and, Nat.testBit_two_pow, Nat.zero_testBit]
    by_cases hi : 10 = i
    · rw [← hi, Nat.testBit_lt_two_pow hlow, Bool.false_and]
    · rw [decide_eq_false hi, Bool.and_false]

/-- A round that does not stop doubles the mantissa, so enough rounds take it to bit 10. -/
theorem normalizeSubnormal_stops (rounds : Nat) {m : UInt32} (e : Int) (hm : m.toNat < 0x800)
    (hreach : 0x400 ≤ m.toNat * 2 ^ rounds) : (normalizeSubnormal rounds m e).1 &&& 0x400 ≠ 0 := by
  induction rounds generalizing m e with
  | zero =>
    rw [Nat.pow_zero, Nat.mul_one] at hreach
    exact fun hzero => Nat.not_lt.mpr hreach ((bit10_eq_zero_iff hm).mp hzero)
  | succ rounds ih =>
    unfold normalizeSubnormal
    split
    next hzero =>
      have hlow := (bit10_eq_zero_iff hm).mp hzero
      have hdouble : (m <<< 1).toNat = 2 * m.toNat := by
        rw [UInt32.toNat_shiftLeft, Nat.shiftLeft_eq]
        change m.toNat * 2 ^ 1 % 2 ^ 32 = _
        omega
      refine ih (e - 1) (by omega) ?_
      rw [hdouble, Nat.mul_comm 2, Nat.mul_assoc, ← Nat.pow_succ']
      exact hreach
    next hbit => exact hbit

/-- Ten rounds end the loop on every mantissa that reaches it. -/
theorem normalizeSubnormal_done :
    ∀ mant < 0x400, mant ≠ 0 →
      (normalizeSubnormal 10 (UInt32.ofNat mant) 1).1 &&& 0x400 ≠ 0 := by
  intro mant hmant hsome
  have hvalue : (UInt32.ofNat mant).toNat = mant := UInt32.toNat_ofNat_of_lt' (by change mant < 2 ^ 32; omega)
  apply normalizeSubnormal_stops
  · omega
  · rw [hvalue]
    omega

/-- `f16_to_f32(u16::from_le_bytes([lo, hi]))`. -/
def f16Le (lo hi : UInt8) : F :=
  f16ToF32 (lo.toUInt16 ||| (hi.toUInt16 <<< 8))

/-- A byte's low or high half as a number. -/
def lowNibble (b : UInt8) : Int := (b &&& 0x0F).toNat
def highNibble (b : UInt8) : Int := (b >>> 4).toNat

/-! ### Offsets inside a block

The bounds of the bytes that several modules read, each under one name. -/

namespace Offset

theorem q4_0_scale0 : 0 < 18 := by decide
theorem q4_0_scale1 : 1 < 18 := by decide
theorem q4_0_payload (j : Fin 16) : 2 + j.val < 18 := by omega

theorem q5_0_scale0 : 0 < 22 := by decide
theorem q5_0_scale1 : 1 < 22 := by decide
theorem q5_0_high0 : 2 < 22 := by decide
theorem q5_0_high1 : 3 < 22 := by decide
theorem q5_0_high2 : 4 < 22 := by decide
theorem q5_0_high3 : 5 < 22 := by decide
theorem q5_0_payload (j : Fin 16) : 6 + j.val < 22 := by omega

theorem q8_0_scale0 : 0 < 34 := by decide
theorem q8_0_scale1 : 1 < 34 := by decide
theorem q8_0_payload (i : Fin 32) : 2 + i.val < 34 := by omega

theorem q4k_d0 : 0 < 144 := by decide
theorem q4k_d1 : 1 < 144 := by decide
theorem q4k_dmin0 : 2 < 144 := by decide
theorem q4k_dmin1 : 3 < 144 := by decide
theorem q4k_qs (half : Fin 4) (l : Fin 32) : 16 + 32 * half.val + l.val < 144 := by omega

/-- The packed byte of sub-block `j`, and those four bytes behind and before it. -/
theorem scale (j : Fin 8) : j.val < 12 := by omega
theorem scale_behind (j : Fin 8) : j.val + 4 < 12 := by omega
theorem scale_before (j : Fin 8) : j.val - 4 < 12 := by omega

theorem q6k_d0 : 208 < 210 := by decide
theorem q6k_d1 : 209 < 210 := by decide
theorem q6k_qh (half : Fin 2) (l : Fin 32) : 128 + 32 * half.val + l.val < 210 := by omega
theorem q6k_scales (j : Fin 16) : 192 + j.val < 210 := by omega

/-- The two of each of four pairs. -/
theorem pair_low (j : Fin 4) : 2 * j.val < 8 := by omega
theorem pair_high (j : Fin 4) : 2 * j.val + 1 < 8 := by omega

end Offset

/-! ### Blocks of a byte string -/

/-- The whole blocks of `size` bytes, in order. -/
def blocksOf (size : Nat) (bytes : List UInt8) : List (Vector UInt8 size) :=
  List.ofFn fun b : Fin (bytes.length / size) =>
    Vector.ofFn fun i : Fin size =>
      bytes.get ⟨b * size + i, by
        have hb : (b + 1) * size ≤ bytes.length / size * size := Nat.mul_le_mul_right size b.isLt
        have hfits := Nat.div_mul_le_self bytes.length size
        have hi := i.isLt
        rw [Nat.add_mul, Nat.one_mul] at hb
        omega⟩

@[simp] theorem length_blocksOf (size : Nat) (bytes : List UInt8) :
    (blocksOf size bytes).length = bytes.length / size :=
  List.length_ofFn

/-- The shared frame of the dequantizers: whole blocks only, each decoded on its own into its
`numel` cells of `out`. -/
def dequantize (size numel : Nat) (ragged : String) (decode : Vector UInt8 size → List F)
    (data : List UInt8) : Res (List F) :=
  if data.length % size ≠ 0 then .error (.err (.internal ragged))
  else do
    let nBlocks := data.length / size
    let _out : List F ← zeroVec (nBlocks * numel)
    pure ((blocksOf size data).flatMap decode)

/-! ### Q4_0, Q5_0 and Q8_0 -/

def q4_0Weights (block : Vector UInt8 18) : List F :=
  let scale : F := f16Le block[0] block[1]
  (List.finRange 16).flatMap fun k : Fin 16 =>
    let byte := block[2 + k.val]
    let lo := lowNibble byte - 8
    let hi := highNibble byte - 8
    [F32.mul scale (F32.ofInt lo), F32.mul scale (F32.ofInt hi)]

def dequantizeQ4_0 : List UInt8 → Res (List F) :=
  dequantize 18 32 "Q4_0 byte length not a multiple of 18" q4_0Weights

def q5_0Weights (block : Vector UInt8 22) : List F :=
  let scale : F := f16Le block[0] block[1]
  let qh : UInt32 := block[2].toUInt32 ||| (block[3].toUInt32 <<< 8) |||
    (block[4].toUInt32 <<< 16) ||| (block[5].toUInt32 <<< 24)
  -- out[j] for the 16 low nibbles, then out[j + 16] for the high ones
  let low := (List.finRange 16).map fun j : Fin 16 =>
    let xh := (((qh >>> UInt32.ofNat j.val) <<< 4) &&& 0x10).toUInt8
    let x : Int := (((block[6 + j.val] &&& 0x0F) ||| xh).toNat : Int) - 16
    F32.mul scale (F32.ofInt x)
  let high := (List.finRange 16).map fun j : Fin 16 =>
    let xh := ((qh >>> UInt32.ofNat (j.val + 12)) &&& 0x10).toUInt8
    let x : Int := (((block[6 + j.val] >>> 4) ||| xh).toNat : Int) - 16
    F32.mul scale (F32.ofInt x)
  low ++ high

def dequantizeQ5_0 : List UInt8 → Res (List F) :=
  dequantize 22 32 "Q5_0 byte length not a multiple of 22" q5_0Weights

def q8_0Weights (block : Vector UInt8 34) : List F :=
  let scale : F := f16Le block[0] block[1]
  (List.finRange 32).map fun k : Fin 32 =>
    let q : F := F32.ofInt block[2 + k.val].toInt8.toInt
    F32.mul scale q

def dequantizeQ8_0 : List UInt8 → Res (List F) :=
  dequantize 34 32 "Q8_0 byte length not a multiple of 34" q8_0Weights

/-! ### Q4_K -/

/-- The 6-bit scale and minimum of sub-block `j`. -/
def getScaleMinK4 (j : Fin 8) (scales : Vector UInt8 12) : UInt8 × UInt8 :=
  if h : j.val < 4 then (scales[j.val] &&& 0x3F, scales[j.val + 4] &&& 0x3F)
  else
    let d : UInt8 := (scales[j.val + 4] &&& (0x0F : UInt8)) ||| ((scales[j.val - 4] >>> 6) <<< 4)
    let m : UInt8 := (scales[j.val + 4] >>> 4) ||| ((scales[j.val] >>> 6) <<< 4)
    (d, m)

/-- `scales.copy_from_slice(&block[4..16])`. -/
def q4kScales (block : Vector UInt8 144) : Vector UInt8 12 :=
  Vector.ofFn fun i => block[4 + i.val]

/-- A super-block's weights: 4 turns of 64, 32 from the low nibbles and 32 from the high. -/
def q4kWeights (block : Vector UInt8 144) : List F :=
  let d : F := f16Le block[0] block[1]
  let dmin : F := f16Le block[2] block[3]
  let scales := q4kScales block
  (List.finRange 4).flatMap fun turn : Fin 4 =>
    let (sc1, m1) := getScaleMinK4 ⟨2 * turn, by omega⟩ scales
    let (sc2, m2) := getScaleMinK4 ⟨2 * turn + 1, by omega⟩ scales
    let d1 := F32.mul d (F32.ofInt sc1.toNat)
    let m1f := F32.mul dmin (F32.ofInt m1.toNat)
    let d2 := F32.mul d (F32.ofInt sc2.toNat)
    let m2f := F32.mul dmin (F32.ofInt m2.toNat)
    let low := (List.finRange 32).map fun l : Fin 32 =>
      F32.sub (F32.mul d1 (F32.ofInt (lowNibble block[16 + 32 * turn.val + l.val]))) m1f
    let high := (List.finRange 32).map fun l : Fin 32 =>
      F32.sub (F32.mul d2 (F32.ofInt (highNibble block[16 + 32 * turn.val + l.val]))) m2f
    low ++ high

def dequantizeQ4K : List UInt8 → Res (List F) :=
  dequantize 144 256 "Q4_K byte length not a multiple of 144" q4kWeights

/-! ### Q6_K -/

/-- The 6-bit code of element `l + 32 * k` of a half: four bits of `ql` below two of `qh`. -/
def q6kCode (block : Vector UInt8 210) (half : Fin 2) (k : Fin 4) (l : Fin 32) : Int :=
  let b0 := block[64 * half.val + l.val]
  let b1 := block[64 * half.val + l.val + 32]
  let h := block[128 + 32 * half.val + l.val]
  let low : UInt8 := match k with
    | 0 => b0 &&& 0x0F
    | 1 => b1 &&& 0x0F
    | 2 => b0 >>> 4
    | 3 => b1 >>> 4
  let high : UInt8 := match k with
    | 0 => h &&& 0x03
    | 1 => (h >>> 2) &&& 0x03
    | 2 => (h >>> 4) &&& 0x03
    | 3 => (h >>> 6) &&& 0x03
  ((low ||| (high <<< 4)).toNat : Int) - 32

/-- `scales[j] as i8 as i32`. -/
def q6kScale (block : Vector UInt8 210) (j : Fin 16) : Int :=
  block[192 + j.val].toInt8.toInt

/-- A super-block's weights: 2 halves of 128, each filled at `l`, `l + 32`, `l + 64` and
`l + 96`. -/
def q6kWeights (block : Vector UInt8 210) : List F :=
  let d : F := f16Le block[208] block[209]
  (List.finRange 2).flatMap fun half : Fin 2 =>
    (List.finRange 4).flatMap fun k : Fin 4 =>
      (List.finRange 32).map fun l : Fin 32 =>
        let s : F := F32.ofInt (q6kScale block ⟨8 * half + (l / 16 + 2 * k), by omega⟩)
        let q : F := F32.ofInt (q6kCode block half k l)
        F32.mul (F32.mul d s) q

def dequantizeQ6K : List UInt8 → Res (List F) :=
  dequantize 210 256 "Q6_K byte length not a multiple of 210" q6kWeights

/-! ### Every block fills its own range -/

@[simp] theorem length_q4_0Weights (block : Vector UInt8 18) :
    (q4_0Weights block : List F).length = 32 := by
  simp [q4_0Weights, List.length_flatMap]

@[simp] theorem length_q5_0Weights (block : Vector UInt8 22) :
    (q5_0Weights block : List F).length = 32 := by
  simp [q5_0Weights]

@[simp] theorem length_q8_0Weights (block : Vector UInt8 34) :
    (q8_0Weights block : List F).length = 32 := by
  simp [q8_0Weights]

@[simp] theorem length_q4kWeights (block : Vector UInt8 144) :
    (q4kWeights block : List F).length = 256 := by
  simp [q4kWeights, List.length_flatMap]

@[simp] theorem length_q6kWeights (block : Vector UInt8 210) :
    (q6kWeights block : List F).length = 256 := by
  simp [q6kWeights, List.length_flatMap]

/-- A whole number of blocks is decoded if its floats fit in memory. -/
theorem dequantize_eq {size numel : Nat} {ragged : String} {decode : Vector UInt8 size → List F}
    {data : List UInt8} (hwhole : data.length % size = 0)
    (hmemory : data.length / size * numel * 4 < 2 ^ 63) :
    dequantize size numel ragged decode data = .ok ((blocksOf size data).flatMap decode) := by
  unfold dequantize
  rw [if_neg (not_not_intro hwhole)]
  dsimp only
  rw [zeroVec_of_lt hmemory]
  rfl

/-- Otherwise the buffer for them is refused. -/
theorem dequantize_large {size numel : Nat} {ragged : String} {decode : Vector UInt8 size → List F}
    {data : List UInt8} (hwhole : data.length % size = 0)
    (hlarge : 2 ^ 63 ≤ data.length / size * numel * 4) :
    dequantize size numel ragged decode data = .error (.panic .capacityOverflow) := by
  unfold dequantize
  rw [if_neg (not_not_intro hwhole)]
  dsimp only
  rw [zeroVec_of_ge hlarge]
  rfl

theorem dequantize_eq_ok {size numel : Nat} {ragged : String} {decode : Vector UInt8 size → List F}
    {data : List UInt8} {out : List F} (h : dequantize size numel ragged decode data = .ok out) :
    data.length % size = 0 ∧ data.length / size * numel * 4 < 2 ^ 63 ∧
      out = (blocksOf size data).flatMap decode := by
  unfold dequantize at h
  split at h
  next => cases h
  next hwhole =>
    obtain ⟨zeros, hzeros, h⟩ := bind_eq_ok.mp h
    cases h
    exact ⟨not_not.mp hwhole, zeroVec_eq_ok hzeros, rfl⟩

omit [F32 F] in
/-- Each block gives `numel` weights. -/
theorem length_flatMap_blocksOf {size numel : Nat} {decode : Vector UInt8 size → List F}
    (hdecode : ∀ block, (decode block).length = numel) (data : List UInt8) :
    ((blocksOf size data).flatMap decode).length = data.length / size * numel := by
  have hconst : (blocksOf size data).map (fun block => (decode block).length) =
      (blocksOf size data).map fun _ => numel :=
    List.map_congr_left fun block _ => hdecode block
  rw [List.length_flatMap, hconst, List.map_const', List.sum_replicate_nat, length_blocksOf]

theorem dequantize_ok {size numel : Nat} {ragged : String} {decode : Vector UInt8 size → List F}
    (hdecode : ∀ block, (decode block).length = numel) {data : List UInt8}
    (hwhole : data.length % size = 0) (hmemory : data.length / size * numel * 4 < 2 ^ 63) :
    ∃ out, dequantize size numel ragged decode data = .ok out ∧
      out.length = data.length / size * numel :=
  ⟨_, dequantize_eq hwhole hmemory, length_flatMap_blocksOf hdecode data⟩

end VitniTensor
