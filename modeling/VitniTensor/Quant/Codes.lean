import VitniTensor.Quant.Blocks
import Mathlib.Data.Nat.Bitwise

/-!
# Raw codes

A block is its half-float scales and its integer codes, and nothing else: each format's decoder reads
every bit of the payload once. The codes are those of the decoder, before any float operation.
-/

namespace VitniTensor

open Outcome

/-! ### Fields of a byte -/

theorem toNat_low (b : UInt8) : (b &&& 0x0F).toNat = b.toNat % 16 := by
  have hmask : (0x0F : UInt8).toNat = 2 ^ 4 - 1 := rfl
  rw [UInt8.toNat_and, hmask, Nat.and_two_pow_sub_one_eq_mod]

theorem toNat_high (b : UInt8) : (b >>> 4).toNat = b.toNat / 16 := by
  rw [UInt8.toNat_shiftRight]
  exact Nat.shiftRight_eq_div_pow _ 4

theorem toNat_low6 (b : UInt8) : (b &&& 0x3F).toNat = b.toNat % 64 := by
  have hmask : (0x3F : UInt8).toNat = 2 ^ 6 - 1 := rfl
  rw [UInt8.toNat_and, hmask, Nat.and_two_pow_sub_one_eq_mod]

theorem toNat_top2 (b : UInt8) : (b >>> 6).toNat = b.toNat / 64 := by
  rw [UInt8.toNat_shiftRight]
  exact Nat.shiftRight_eq_div_pow _ 6

theorem toNat_low2 (b : UInt8) : (b &&& 0x03).toNat = b.toNat % 4 := by
  have hmask : (0x03 : UInt8).toNat = 2 ^ 2 - 1 := rfl
  rw [UInt8.toNat_and, hmask, Nat.and_two_pow_sub_one_eq_mod]

/-- Four bits, and up to four above them. -/
theorem toNat_joined {low high : UInt8} (hlow : low.toNat < 16) (hhigh : high.toNat < 16) :
    (low ||| (high <<< 4)).toNat = low.toNat + 16 * high.toNat := by
  have hamount : (4 : UInt8).toNat % 8 = 4 := rfl
  have hshift : (high <<< 4).toNat = 2 ^ 4 * high.toNat := by
    rw [UInt8.toNat_shiftLeft, hamount, Nat.shiftLeft_eq]
    omega
  rw [UInt8.toNat_or, hshift, Nat.or_comm, ← Nat.two_pow_add_eq_or_of_lt (by omega)]
  omega

/-- `u16::from_le_bytes`. -/
def u16Le (lo hi : UInt8) : UInt16 :=
  lo.toUInt16 ||| (hi.toUInt16 <<< 8)

theorem toNat_u16Le (lo hi : UInt8) : (u16Le lo hi).toNat = lo.toNat + 256 * hi.toNat := by
  have hlo := lo.toNat_lt
  have hhi := hi.toNat_lt
  have hamount : (8 : UInt16).toNat % 16 = 8 := rfl
  have hshift : (hi.toUInt16 <<< 8).toNat = 2 ^ 8 * hi.toNat := by
    rw [UInt16.toNat_shiftLeft, hamount, Nat.shiftLeft_eq, UInt8.toNat_toUInt16]
    omega
  unfold u16Le
  rw [UInt16.toNat_or, hshift, UInt8.toNat_toUInt16, Nat.or_comm, ← Nat.two_pow_add_eq_or_of_lt (by omega)]
  omega

/-- `u16::to_le_bytes`. -/
def lowByte (v : UInt16) : UInt8 := UInt8.ofNat v.toNat
def highByte (v : UInt16) : UInt8 := UInt8.ofNat (v.toNat / 256)

theorem lowByte_u16Le (lo hi : UInt8) : lowByte (u16Le lo hi) = lo := by
  have hlo := lo.toNat_lt
  refine UInt8.toNat_inj.mp ?_
  unfold lowByte
  rw [UInt8.toNat_ofNat', toNat_u16Le]
  omega

theorem highByte_u16Le (lo hi : UInt8) : highByte (u16Le lo hi) = hi := by
  have hlo := lo.toNat_lt
  have hhi := hi.toNat_lt
  refine UInt8.toNat_inj.mp ?_
  unfold highByte
  rw [UInt8.toNat_ofNat', toNat_u16Le]
  omega

theorem u16Le_bytes (v : UInt16) : u16Le (lowByte v) (highByte v) = v := by
  have hv := v.toNat_lt
  refine UInt16.toNat_inj.mp ?_
  unfold lowByte highByte
  rw [toNat_u16Le, UInt8.toNat_ofNat', UInt8.toNat_ofNat']
  omega

/-- The two codes of a byte of nibbles. -/
def lowCode (b : UInt8) : Fin 16 :=
  ⟨(b &&& 0x0F).toNat, by rw [toNat_low]; omega⟩

def highCode (b : UInt8) : Fin 16 :=
  ⟨(b >>> 4).toNat, by have hb := b.toNat_lt; rw [toNat_high]; omega⟩

theorem lowCode_val (b : UInt8) : (lowCode b).val = b.toNat % 16 :=
  toNat_low b

theorem highCode_val (b : UInt8) : (highCode b).val = b.toNat / 16 :=
  toNat_high b

def nibbles (low high : Fin 16) : UInt8 :=
  UInt8.ofNat (low.val + 16 * high.val)

theorem toNat_nibbles (low high : Fin 16) : (nibbles low high).toNat = low.val + 16 * high.val := by
  unfold nibbles
  rw [UInt8.toNat_ofNat']
  omega

theorem nibbles_codes (b : UInt8) : nibbles (lowCode b) (highCode b) = b := by
  refine UInt8.toNat_inj.mp ?_
  rw [toNat_nibbles, lowCode_val, highCode_val]
  omega

theorem lowCode_nibbles (low high : Fin 16) : lowCode (nibbles low high) = low := by
  refine Fin.ext ?_
  rw [lowCode_val, toNat_nibbles]
  omega

theorem highCode_nibbles (low high : Fin 16) : highCode (nibbles low high) = high := by
  refine Fin.ext ?_
  rw [highCode_val, toNat_nibbles]
  omega

/-! ### Q4_0 -/

/-- Nibble `i` of the payload: the low half of a byte comes before the high one. -/
def q4_0Codes (block : Vector UInt8 18) : UInt16 × (Fin 32 → Fin 16) :=
  (u16Le (getElem block 0 Offset.q4_0_scale0) (getElem block 1 Offset.q4_0_scale1), fun i =>
    if i.val % 2 = 0 then lowCode block[2 + i.val / 2] else highCode block[2 + i.val / 2])

def q4_0Bytes (c : UInt16 × (Fin 32 → Fin 16)) : Vector UInt8 18 :=
  Vector.ofFn fun i => if i.val = 0 then lowByte c.1 else if i.val = 1 then highByte c.1
    else nibbles (c.2 ⟨2 * (i.val - 2), by omega⟩) (c.2 ⟨2 * (i.val - 2) + 1, by omega⟩)

theorem q4_0Codes_bijective : Function.Bijective q4_0Codes := by
  refine Function.bijective_iff_has_inverse.mpr ⟨q4_0Bytes, fun block => ?_, fun c => ?_⟩
  -- From bytes to codes and back, byte by byte: the two of the scale, then the nibbles.
  · refine Vector.ext fun i hi => ?_
    unfold q4_0Bytes q4_0Codes
    rw [Vector.getElem_ofFn]
    dsimp only
    split
    next h => subst h; exact lowByte_u16Le _ _
    next =>
      split
      next h => subst h; exact highByte_u16Le _ _
      -- Byte `i` carries the codes `2 * (i - 2)` and the next, whose own byte is `i` again.
      next =>
        have heven : 2 * (i - 2) % 2 = 0 := by omega
        have hodd : ¬(2 * (i - 2) + 1) % 2 = 0 := by omega
        have hbyte : 2 + 2 * (i - 2) / 2 = i := by omega
        have hbyte' : 2 + (2 * (i - 2) + 1) / 2 = i := by omega
        rw [if_pos heven, if_neg hodd]
        simp only [hbyte, hbyte']
        exact nibbles_codes _
  -- From codes to bytes and back: the scale, then each code from its half of a byte.
  · refine Prod.ext ?_ (funext fun i => ?_)
    · unfold q4_0Codes q4_0Bytes
      simp only [Vector.getElem_ofFn]
      exact u16Le_bytes _
    · unfold q4_0Codes q4_0Bytes
      have hzero : ¬2 + i.val / 2 = 0 := by omega
      have hone : ¬2 + i.val / 2 = 1 := by omega
      simp only [Vector.getElem_ofFn, hzero, hone, if_false]
      split
      next h =>
        rw [lowCode_nibbles]
        exact congrArg c.2 (Fin.ext (by dsimp only; omega))
      next h =>
        rw [highCode_nibbles]
        exact congrArg c.2 (Fin.ext (by dsimp only; omega))

/-! ### Q8_0 -/

def q8_0Codes (block : Vector UInt8 34) : UInt16 × (Fin 32 → Int8) :=
  (u16Le (getElem block 0 Offset.q8_0_scale0) (getElem block 1 Offset.q8_0_scale1),
    fun i => (getElem block (2 + i.val) (Offset.q8_0_payload i)).toInt8)

def q8_0Bytes (c : UInt16 × (Fin 32 → Int8)) : Vector UInt8 34 :=
  Vector.ofFn fun i => if i.val = 0 then lowByte c.1 else if i.val = 1 then highByte c.1
    else (c.2 ⟨i.val - 2, by omega⟩).toUInt8

theorem q8_0Codes_bijective : Function.Bijective q8_0Codes := by
  refine Function.bijective_iff_has_inverse.mpr ⟨q8_0Bytes, fun block => ?_, fun c => ?_⟩
  · refine Vector.ext fun i hi => ?_
    unfold q8_0Bytes q8_0Codes
    rw [Vector.getElem_ofFn]
    dsimp only
    split
    -- Bytes 0 and 1 are the scale; byte `i` behind them is code `i - 2`, as a signed byte.
    next h => subst h; exact lowByte_u16Le _ _
    next =>
      split
      next h => subst h; exact highByte_u16Le _ _
      next =>
        have hbyte : 2 + (i - 2) = i := by omega
        simp only [hbyte]
        exact UInt8.toUInt8_toInt8 _
  · refine Prod.ext ?_ (funext fun i => ?_)
    · unfold q8_0Codes q8_0Bytes
      simp only [Vector.getElem_ofFn]
      exact u16Le_bytes _
    · unfold q8_0Codes q8_0Bytes
      have hzero : ¬2 + i.val = 0 := by omega
      have hone : ¬2 + i.val = 1 := by omega
      simp only [Vector.getElem_ofFn, hzero, hone, if_false, Nat.add_sub_cancel_left]
      exact Int8.toInt8_toUInt8 _

/-! ### Q5_0 -/

/-- `u32::from_le_bytes`. -/
def u32Le (b0 b1 b2 b3 : UInt8) : UInt32 :=
  b0.toUInt32 ||| (b1.toUInt32 <<< 8) ||| (b2.toUInt32 <<< 16) ||| (b3.toUInt32 <<< 24)

theorem toNat_u32Le (b0 b1 b2 b3 : UInt8) :
    (u32Le b0 b1 b2 b3).toNat = b0.toNat + 2 ^ 8 * b1.toNat + 2 ^ 16 * b2.toNat + 2 ^ 24 * b3.toNat := by
  have h0 := b0.toNat_lt
  have h1 := b1.toNat_lt
  have h2 := b2.toNat_lt
  have h3 := b3.toNat_lt
  -- A byte shifted left by at most 24 does not leave the word.
  have hshift : ∀ (b : UInt8) (k : UInt32), k.toNat ≤ 24 → (b.toUInt32 <<< k).toNat = 2 ^ k.toNat * b.toNat := by
    intro b k hk
    have hb := b.toNat_lt
    have hsmall : b.toNat * 2 ^ k.toNat < 2 ^ 32 := by
      calc b.toNat * 2 ^ k.toNat < 2 ^ 8 * 2 ^ 24 :=
            Nat.mul_lt_mul_of_lt_of_le hb (Nat.pow_le_pow_right (by decide) hk) (by decide)
        _ = 2 ^ 32 := by decide
    rw [UInt32.toNat_shiftLeft, Nat.mod_eq_of_lt (by omega : k.toNat < 32), Nat.shiftLeft_eq, UInt8.toNat_toUInt32,
      Nat.mod_eq_of_lt hsmall, Nat.mul_comm]
  -- The four bytes do not overlap, so each `|||` adds.
  have hjoin : ∀ {n a b : Nat}, a < 2 ^ n → a ||| (2 ^ n * b) = a + 2 ^ n * b := by
    intro n a b ha
    rw [Nat.or_comm, ← Nat.two_pow_add_eq_or_of_lt ha, Nat.add_comm]
  have e8 : (8 : UInt32).toNat = 8 := rfl
  have e16 : (16 : UInt32).toNat = 16 := rfl
  have e24 : (24 : UInt32).toNat = 24 := rfl
  unfold u32Le
  rw [UInt32.toNat_or, UInt32.toNat_or, UInt32.toNat_or, hshift b1 8 (by decide), hshift b2 16 (by decide),
    hshift b3 24 (by decide), UInt8.toNat_toUInt32, e8, e16, e24, hjoin h0,
    hjoin (by omega : b0.toNat + 2 ^ 8 * b1.toNat < 2 ^ 16),
    hjoin (by omega : b0.toNat + 2 ^ 8 * b1.toNat + 2 ^ 16 * b2.toNat < 2 ^ 24)]

/-- A bit moved to place 4. -/
theorem toNat_bit4 {v : UInt32} {bit : Bool} (h : v.toNat.testBit 4 = bit) :
    (v &&& 0x10).toUInt8.toNat = 16 * bit.toNat := by
  have hmask : (0x10 : UInt32).toNat = 2 ^ 4 := rfl
  have hbit := bit.toNat_lt
  rw [UInt32.toNat_toUInt8, UInt32.toNat_and, hmask, Nat.and_two_pow, h]
  omega

theorem testBit_shifted {qh : UInt32} {j : Nat} (hj : j < 16) :
    (qh >>> UInt32.ofNat (j + 12)).toNat.testBit 4 = qh.toNat.testBit (j + 16) ∧
      ((qh >>> UInt32.ofNat j) <<< 4).toNat.testBit 4 = qh.toNat.testBit j := by
  have hamount : ∀ k < 32, (UInt32.ofNat k).toNat % 32 = k := by
    intro k hk
    rw [UInt32.toNat_ofNat']
    omega
  have hfour : (4 : UInt32).toNat % 32 = 4 := rfl
  constructor
  · rw [UInt32.toNat_shiftRight, hamount _ (by omega), Nat.testBit_shiftRight]
  · rw [UInt32.toNat_shiftLeft, hfour, UInt32.toNat_shiftRight, hamount _ (by omega), Nat.testBit_mod_two_pow,
      Nat.testBit_shiftLeft, Nat.testBit_shiftRight]
    simp

/-- A nibble below a bit. -/
theorem toNat_nibble_bit {a b : UInt8} {bit : Bool} (ha : a.toNat < 16) (hb : b.toNat = 16 * bit.toNat) :
    (a ||| b).toNat = a.toNat + 16 * bit.toNat := by
  have hpow : 16 * bit.toNat = 2 ^ 4 * bit.toNat := rfl
  rw [UInt8.toNat_or, hb, hpow, Nat.or_comm, ← Nat.two_pow_add_eq_or_of_lt (by omega)]
  omega

/-- The five bits of element `i`: element `j` and element `j + 16` share a byte. -/
def q5_0Raw (block : Vector UInt8 22) (i : Fin 32) : UInt8 :=
  let qh := u32Le (getElem block 2 Offset.q5_0_high0) (getElem block 3 Offset.q5_0_high1)
    (getElem block 4 Offset.q5_0_high2) (getElem block 5 Offset.q5_0_high3)
  if h : i.val < 16 then
    (block[6 + i.val] &&& (0x0F : UInt8)) ||| (((qh >>> UInt32.ofNat i.val) <<< 4) &&& 0x10).toUInt8
  else
    let j := i.val - 16
    (block[6 + j] >>> 4) ||| ((qh >>> UInt32.ofNat (j + 12)) &&& 0x10).toUInt8

theorem toNat_q5_0Raw (block : Vector UInt8 22) (i : Fin 32) :
    (q5_0Raw block i).toNat =
      (if i.val < 16 then block[6 + i.val % 16].toNat % 16 else block[6 + i.val % 16].toNat / 16) +
        16 * ((u32Le (getElem block 2 Offset.q5_0_high0) (getElem block 3 Offset.q5_0_high1)
          (getElem block 4 Offset.q5_0_high2) (getElem block 5 Offset.q5_0_high3)).toNat.testBit i.val).toNat := by
  unfold q5_0Raw
  dsimp only
  -- Nibble order of the format: the low halves are values 0..15, the high halves 16..31.
  split
  next h =>
    have hmod : i.val % 16 = i.val := Nat.mod_eq_of_lt h
    rw [toNat_nibble_bit (by rw [toNat_low]; omega) (toNat_bit4 (testBit_shifted h).2), toNat_low]
    simp only [hmod]
  next h =>
    have hb := block[6 + (i.val - 16)].toNat_lt
    have hmod : i.val % 16 = i.val - 16 := by omega
    have hplace : i.val - 16 + 16 = i.val := by omega
    rw [toNat_nibble_bit (by rw [toNat_high]; omega) (toNat_bit4 (testBit_shifted (by omega)).1), toNat_high, hplace]
    simp only [hmod]

def q5_0Codes (block : Vector UInt8 22) : UInt16 × (Fin 32 → Fin 32) :=
  (u16Le (getElem block 0 Offset.q5_0_scale0) (getElem block 1 Offset.q5_0_scale1), fun i => ⟨(q5_0Raw block i).toNat, by
    have hb := block[6 + i.val % 16].toNat_lt
    have hbit := ((u32Le block[2] block[3] block[4] block[5]).toNat.testBit i.val).toNat_lt
    rw [toNat_q5_0Raw]
    split <;> omega⟩)

/-- The high bits of the codes. -/
def highBits (c : Fin 32 → Fin 32) : Nat :=
  Nat.ofBits fun i => decide (16 ≤ (c i).val)

def q5_0Bytes (c : UInt16 × (Fin 32 → Fin 32)) : Vector UInt8 22 :=
  Vector.ofFn fun i => if i.val = 0 then lowByte c.1 else if i.val = 1 then highByte c.1
    else if i.val < 6 then UInt8.ofNat (highBits c.2 / 2 ^ (8 * (i.val - 2)))
    else nibbles ⟨c.2 ⟨i.val - 6, by omega⟩ % 16, by omega⟩ ⟨c.2 ⟨i.val - 6 + 16, by omega⟩ % 16, by omega⟩

theorem highBits_q5_0Codes (block : Vector UInt8 22) :
    highBits (q5_0Codes block).2 = (u32Le (getElem block 2 Offset.q5_0_high0) (getElem block 3 Offset.q5_0_high1)
      (getElem block 4 Offset.q5_0_high2) (getElem block 5 Offset.q5_0_high3)).toNat := by
  refine Nat.eq_of_testBit_eq fun i => ?_
  unfold highBits
  by_cases hi : i < 32
  · have hb := block[6 + i % 16].toNat_lt
    have hraw := toNat_q5_0Raw block ⟨i, hi⟩
    dsimp only at hraw
    rw [Nat.testBit_ofBits_lt _ i hi, Bool.eq_iff_iff, decide_eq_true_eq]
    change 16 ≤ (q5_0Raw block ⟨i, hi⟩).toNat ↔ _
    -- Bit `i` of the four high bytes says whether value `i` has reached 16.
    cases hbit : (u32Le block[2] block[3] block[4] block[5]).toNat.testBit i with
    | false =>
      rw [hbit, Bool.toNat_false] at hraw
      split at hraw <;> simp <;> omega
    | true =>
      rw [hbit, Bool.toNat_true] at hraw
      simp
      omega
  -- Neither side has a bit from 32 on.
  · have hlt := (u32Le block[2] block[3] block[4] block[5]).toNat_lt
    rw [Nat.testBit_ofBits_ge _ i (by omega), Nat.testBit_lt_two_pow]
    exact Nat.lt_of_lt_of_le hlt (Nat.pow_le_pow_right (by decide) (by omega))

theorem q5_0Codes_bijective : Function.Bijective q5_0Codes := by
  refine Function.bijective_iff_has_inverse.mpr ⟨q5_0Bytes, fun block => ?_, fun c => ?_⟩
  · refine Vector.ext fun i hi => ?_
    unfold q5_0Bytes
    rw [Vector.getElem_ofFn]
    dsimp only
    -- The scale, the four bytes of fifth bits, then the nibbles.
    split
    next h => subst h; exact lowByte_u16Le _ _
    next =>
      split
      next h => subst h; exact highByte_u16Le _ _
      next =>
        split
        next h =>
          have h2 := block[2].toNat_lt
          have h3 := block[3].toNat_lt
          have h4 := block[4].toNat_lt
          refine UInt8.toNat_inj.mp ?_
          -- Each byte of `qh` is a quarter of the 32-bit number, read back in its own place.
          rw [highBits_q5_0Codes, toNat_u32Le, UInt8.toNat_ofNat']
          obtain rfl | rfl | rfl | rfl : i = 2 ∨ i = 3 ∨ i = 4 ∨ i = 5 := by omega
          · omega
          · omega
          · omega
          · have h5 := block[5].toNat_lt
            omega
        -- Behind byte 6, byte `i` holds the low four bits of values `i - 6` and `i + 10`.
        next h =>
          have hb := block[i].toNat_lt
          have hlow : i - 6 < 16 := by omega
          have hhigh : ¬i - 6 + 16 < 16 := by omega
          have hbyte : 6 + (i - 6) % 16 = i := by omega
          have hbyte' : 6 + (i - 6 + 16) % 16 = i := by omega
          refine UInt8.toNat_inj.mp ?_
          unfold q5_0Codes
          rw [toNat_nibbles]
          dsimp only
          rw [toNat_q5_0Raw, toNat_q5_0Raw]
          simp only [hlow, hhigh, if_true, if_false, hbyte, hbyte']
          omega
  -- The fifth bits survive the way through the bytes as one 32-bit number.
  · have hqh : (u32Le (q5_0Bytes c)[2] (q5_0Bytes c)[3] (q5_0Bytes c)[4] (q5_0Bytes c)[5]).toNat = highBits c.2 := by
      have hlt : highBits c.2 < 2 ^ 32 := Nat.ofBits_lt_two_pow _
      have hpart : ∀ m (hm : m < 4), (q5_0Bytes c)[m + 2].toNat = highBits c.2 / 2 ^ (8 * m) % 2 ^ 8 := by
        intro m hm
        have hzero : ¬m + 2 = 0 := by omega
        have hone : ¬m + 2 = 1 := by omega
        have hsix : m + 2 < 6 := by omega
        unfold q5_0Bytes
        simp only [Vector.getElem_ofFn, hzero, hone, hsix, if_false, if_true, Nat.add_sub_cancel, UInt8.toNat_ofNat']
      have h0 : (q5_0Bytes c)[2].toNat = _ := hpart 0 (by decide)
      have h1 : (q5_0Bytes c)[3].toNat = _ := hpart 1 (by decide)
      have h2 : (q5_0Bytes c)[4].toNat = _ := hpart 2 (by decide)
      have h3 : (q5_0Bytes c)[5].toNat = _ := hpart 3 (by decide)
      rw [toNat_u32Le, h0, h1, h2, h3]
      omega
    refine Prod.ext ?_ (funext fun i => Fin.ext ?_)
    · unfold q5_0Codes q5_0Bytes
      simp only [Vector.getElem_ofFn]
      exact u16Le_bytes _
    · have hbyte : (q5_0Bytes c)[6 + i.val % 16] = nibbles ⟨c.2 ⟨i.val % 16, by omega⟩ % 16, by omega⟩
          ⟨c.2 ⟨i.val % 16 + 16, by omega⟩ % 16, by omega⟩ := by
        have hzero : ¬6 + i.val % 16 = 0 := by omega
        have hone : ¬6 + i.val % 16 = 1 := by omega
        have hsix : ¬6 + i.val % 16 < 6 := by omega
        unfold q5_0Bytes
        simp only [Vector.getElem_ofFn, hzero, hone, hsix, if_false, Nat.add_sub_cancel_left]
      have hbit : (highBits c.2).testBit i.val = decide (16 ≤ (c.2 i).val) := Nat.testBit_ofBits_lt _ i.val i.isLt
      have hi := (c.2 i).isLt
      unfold q5_0Codes
      dsimp only
      rw [toNat_q5_0Raw, hqh, hbyte, toNat_nibbles, hbit]
      dsimp only
      have hsame : ∀ (j : Fin 32), j.val = i.val → c.2 j = c.2 i := fun j hj => congrArg c.2 (Fin.ext hj)
      -- Value `i` is rebuilt from its nibble and its fifth bit, in either half.
      by_cases hlow : i.val < 16
      · rw [if_pos hlow, hsame ⟨i.val % 16, by omega⟩ (by dsimp only; omega)]
        by_cases hhigh : 16 ≤ (c.2 i).val
        · rw [decide_eq_true hhigh, Bool.toNat_true]
          omega
        · rw [decide_eq_false hhigh, Bool.toNat_false]
          omega
      · rw [if_neg hlow, hsame ⟨i.val % 16 + 16, by omega⟩ (by dsimp only; omega)]
        by_cases hhigh : 16 ≤ (c.2 i).val
        · rw [decide_eq_true hhigh, Bool.toNat_true]
          omega
        · rw [decide_eq_false hhigh, Bool.toNat_false]
          omega

/-! ### Q4_K -/

/-- The scale and the minimum of sub-block `j`, by the values of the packed bytes. -/
theorem toNat_getScaleMinK4 (scales : Vector UInt8 12) (j : Fin 8) :
    (getScaleMinK4 j scales).1.toNat = (if j.val < 4 then (getElem scales j.val (Offset.scale j)).toNat % 64
      else (getElem scales (j.val + 4) (Offset.scale_behind j)).toNat % 16 +
        16 * ((getElem scales (j.val - 4) (Offset.scale_before j)).toNat / 64)) ∧
    (getScaleMinK4 j scales).2.toNat = (if j.val < 4 then
        (getElem scales (j.val + 4) (Offset.scale_behind j)).toNat % 64
      else (getElem scales (j.val + 4) (Offset.scale_behind j)).toNat / 16 +
        16 * ((getElem scales j.val (Offset.scale j)).toNat / 64)) := by
  unfold getScaleMinK4
  split
  -- The first four pairs are six bits of one byte each.
  next h => exact ⟨toNat_low6 _, toNat_low6 _⟩
  -- The last four are put together from a nibble and the top two bits of an earlier byte.
  next h =>
    have hhigh := scales[j.val + 4].toNat_lt
    have hscale := scales[j.val - 4].toNat_lt
    have hmin := scales[j.val].toNat_lt
    dsimp only
    rw [toNat_joined (by rw [toNat_low]; omega) (by rw [toNat_top2]; omega),
      toNat_joined (by rw [toNat_high]; omega) (by rw [toNat_top2]; omega), toNat_low, toNat_high, toNat_top2,
      toNat_top2]
    exact ⟨rfl, rfl⟩

theorem getScaleMinK4_lt (scales : Vector UInt8 12) (j : Fin 8) :
    (getScaleMinK4 j scales).1.toNat < 64 ∧ (getScaleMinK4 j scales).2.toNat < 64 := by
  obtain ⟨hscale, hmin⟩ := toNat_getScaleMinK4 scales j
  rw [hscale, hmin]
  split
  next h => omega
  next h =>
    have hhigh := scales[j.val + 4].toNat_lt
    have hlow := scales[j.val - 4].toNat_lt
    have hsame := scales[j.val].toNat_lt
    omega

/-- The eight 6-bit pairs of scale and minimum. -/
def scalePairs (scales : Vector UInt8 12) (j : Fin 8) : Fin 64 × Fin 64 :=
  (⟨(getScaleMinK4 j scales).1.toNat, (getScaleMinK4_lt scales j).1⟩,
    ⟨(getScaleMinK4 j scales).2.toNat, (getScaleMinK4_lt scales j).2⟩)

/-- The bytes of the pairs: the two top bits of the first eight bytes are those of the last four pairs. -/
def packedPairs (p : Fin 8 → Fin 64 × Fin 64) : Vector UInt8 12 :=
  Vector.ofFn fun i =>
    if h : i.val < 4 then UInt8.ofNat ((p ⟨i.val, by omega⟩).1.val + 64 * ((p ⟨i.val + 4, by omega⟩).1.val / 16))
    else if h' : i.val < 8 then
      UInt8.ofNat ((p ⟨i.val - 4, by omega⟩).2.val + 64 * ((p ⟨i.val, by omega⟩).2.val / 16))
    else UInt8.ofNat ((p ⟨i.val - 4, by omega⟩).1.val % 16 + 16 * ((p ⟨i.val - 4, by omega⟩).2.val % 16))

theorem packedPairs_scalePairs (scales : Vector UInt8 12) : packedPairs (scalePairs scales) = scales := by
  refine Vector.ext fun i hi => UInt8.toNat_inj.mp ?_
  have hb := scales[i].toNat_lt
  unfold packedPairs scalePairs
  rw [Vector.getElem_ofFn]
  dsimp only
  -- The three groups of four bytes: scales 0..3, mins 0..3, nibbles of pairs 4..7.
  split
  next h =>
    have hhigh : ¬i + 4 < 4 := by omega
    rw [UInt8.toNat_ofNat']
    simp only [toNat_getScaleMinK4, h, hhigh, if_pos, if_neg, not_false_eq_true, Nat.add_sub_cancel]
    omega
  next h =>
    split
    next h' =>
      have hnext := scales[i + 4].toNat_lt
      have hlow : i - 4 < 4 := by omega
      have hplace : i - 4 + 4 = i := by omega
      rw [UInt8.toNat_ofNat']
      simp only [toNat_getScaleMinK4, h, hlow, if_pos, if_neg, not_false_eq_true, hplace]
      omega
    next h' =>
      have hhigh : ¬i - 4 < 4 := by omega
      have hplace : i - 4 + 4 = i := by omega
      rw [UInt8.toNat_ofNat']
      simp only [toNat_getScaleMinK4, hhigh, if_neg, not_false_eq_true, hplace]
      omega

theorem toNat_packedPairs (p : Fin 8 → Fin 64 × Fin 64) (i : Nat) (hi : i < 12) :
    (packedPairs p)[i].toNat =
      if h : i < 4 then (p ⟨i, by omega⟩).1.val + 64 * ((p ⟨i + 4, by omega⟩).1.val / 16)
      else if h' : i < 8 then (p ⟨i - 4, by omega⟩).2.val + 64 * ((p ⟨i, by omega⟩).2.val / 16)
      else (p ⟨i - 4, by omega⟩).1.val % 16 + 16 * ((p ⟨i - 4, by omega⟩).2.val % 16) := by
  unfold packedPairs
  rw [Vector.getElem_ofFn]
  dsimp only
  split
  next h =>
    rw [UInt8.toNat_ofNat']
    omega
  next h =>
    split
    next h' =>
      rw [UInt8.toNat_ofNat']
      omega
    next h' =>
      rw [UInt8.toNat_ofNat']
      omega

theorem scalePairs_packedPairs (p : Fin 8 → Fin 64 × Fin 64) : scalePairs (packedPairs p) = p := by
  funext j
  have h1 := (p j).1.isLt
  have h2 := (p j).2.isLt
  unfold scalePairs
  refine Prod.ext (Fin.ext ?_) (Fin.ext ?_)
  -- The scale and the min of pair `j`, each for the first and the last four pairs.
  · dsimp only
    rw [(toNat_getScaleMinK4 _ j).1]
    by_cases h : j.val < 4
    · simp only [h, dif_pos, if_pos, toNat_packedPairs, Fin.eta]
      omega
    · have hlast : ¬j.val + 4 < 8 := by omega
      have hlast' : ¬j.val + 4 < 4 := by omega
      have hfirst : j.val - 4 < 4 := by omega
      have hplace : j.val - 4 + 4 = j.val := by omega
      simp only [h, hlast, hlast', hfirst, dif_pos, dif_neg, if_neg, not_false_eq_true, toNat_packedPairs,
        Nat.add_sub_cancel, hplace, Fin.eta]
      omega
  · dsimp only
    rw [(toNat_getScaleMinK4 _ j).2]
    by_cases h : j.val < 4
    · have hmid : ¬j.val + 4 < 4 := by omega
      have hmid' : j.val + 4 < 8 := by omega
      simp only [h, hmid, hmid', dif_pos, dif_neg, if_pos, not_false_eq_true, toNat_packedPairs, Nat.add_sub_cancel,
        Fin.eta]
      omega
    · have hlast : ¬j.val + 4 < 8 := by omega
      have hlast' : ¬j.val + 4 < 4 := by omega
      simp only [h, hlast, hlast', j.isLt, dif_pos, dif_neg, if_neg, not_false_eq_true, toNat_packedPairs,
        Nat.add_sub_cancel, Fin.eta]
      omega

/-- The nibble of element `i`: of the 64 of a turn, 32 low halves come before the 32 high ones. -/
def q4kNibble (block : Vector UInt8 144) (i : Fin 256) : Fin 16 :=
  if i.val % 64 < 32 then lowCode block[16 + 32 * (i.val / 64) + i.val % 32]
  else highCode block[16 + 32 * (i.val / 64) + i.val % 32]

abbrev Q4kCodes := UInt16 × UInt16 × (Fin 8 → Fin 64 × Fin 64) × (Fin 256 → Fin 16)

def q4kCodes (block : Vector UInt8 144) : Q4kCodes :=
  (u16Le (getElem block 0 Offset.q4k_d0) (getElem block 1 Offset.q4k_d1),
    u16Le (getElem block 2 Offset.q4k_dmin0) (getElem block 3 Offset.q4k_dmin1), scalePairs (q4kScales block), q4kNibble block)

def q4kBytes (c : Q4kCodes) : Vector UInt8 144 :=
  Vector.ofFn fun i => if i.val = 0 then lowByte c.1 else if i.val = 1 then highByte c.1
    else if i.val = 2 then lowByte c.2.1 else if i.val = 3 then highByte c.2.1
    else if h : i.val < 16 then (packedPairs c.2.2.1)[i.val - 4]
    else nibbles (c.2.2.2 ⟨64 * ((i.val - 16) / 32) + (i.val - 16) % 32, by omega⟩)
      (c.2.2.2 ⟨64 * ((i.val - 16) / 32) + 32 + (i.val - 16) % 32, by omega⟩)

theorem q4kCodes_bijective : Function.Bijective q4kCodes := by
  refine Function.bijective_iff_has_inverse.mpr ⟨q4kBytes, fun block => ?_, fun c => ?_⟩
  · refine Vector.ext fun i hi => ?_
    unfold q4kBytes q4kCodes
    rw [Vector.getElem_ofFn]
    dsimp only
    -- The two scales, the twelve packed bytes, then the nibbles.
    split
    next h => subst h; exact lowByte_u16Le _ _
    next =>
      split
      next h => subst h; exact highByte_u16Le _ _
      next =>
        split
        next h => subst h; exact lowByte_u16Le _ _
        next =>
          split
          next h => subst h; exact highByte_u16Le _ _
          next =>
            split
            next h =>
              have hplace : 4 + (i - 4) = i := by omega
              simp only [packedPairs_scalePairs]
              unfold q4kScales
              rw [Vector.getElem_ofFn]
              simp only [hplace]
            -- Byte `i` of a group of 32 holds one value of its chunk of 64 and the one 32
            -- behind it.
            next h =>
              have hlow : (64 * ((i - 16) / 32) + (i - 16) % 32) % 64 < 32 := by omega
              have hhigh : ¬(64 * ((i - 16) / 32) + 32 + (i - 16) % 32) % 64 < 32 := by omega
              have hbyte : 16 + 32 * ((64 * ((i - 16) / 32) + (i - 16) % 32) / 64) +
                  (64 * ((i - 16) / 32) + (i - 16) % 32) % 32 = i := by omega
              have hbyte' : 16 + 32 * ((64 * ((i - 16) / 32) + 32 + (i - 16) % 32) / 64) +
                  (64 * ((i - 16) / 32) + 32 + (i - 16) % 32) % 32 = i := by omega
              unfold q4kNibble
              simp only [hlow, hhigh, if_true, if_false, hbyte, hbyte']
              exact nibbles_codes _
  -- Each part of the codes is read back from the bytes that carry it.
  · have hpacked : q4kScales (q4kBytes c) = packedPairs c.2.2.1 := by
      refine Vector.ext fun i hi => ?_
      have h0 : ¬4 + i = 0 := by omega
      have h1 : ¬4 + i = 1 := by omega
      have h2 : ¬4 + i = 2 := by omega
      have h3 : ¬4 + i = 3 := by omega
      have h16 : 4 + i < 16 := by omega
      unfold q4kScales q4kBytes
      simp only [Vector.getElem_ofFn, h0, h1, h2, h3, h16, if_false, dif_pos, Nat.add_sub_cancel_left]
    have hnibble : q4kNibble (q4kBytes c) = c.2.2.2 := by
      funext i
      have h0 : ¬16 + 32 * (i.val / 64) + i.val % 32 = 0 := by omega
      have h1 : ¬16 + 32 * (i.val / 64) + i.val % 32 = 1 := by omega
      have h2 : ¬16 + 32 * (i.val / 64) + i.val % 32 = 2 := by omega
      have h3 : ¬16 + 32 * (i.val / 64) + i.val % 32 = 3 := by omega
      have h16 : ¬16 + 32 * (i.val / 64) + i.val % 32 < 16 := by omega
      unfold q4kNibble q4kBytes
      simp only [Vector.getElem_ofFn, h0, h1, h2, h3, h16, if_false, dif_neg, not_false_eq_true]
      split
      next h =>
        rw [lowCode_nibbles]
        exact congrArg c.2.2.2 (Fin.ext (by dsimp only; omega))
      next h =>
        rw [highCode_nibbles]
        exact congrArg c.2.2.2 (Fin.ext (by dsimp only; omega))
    unfold q4kCodes
    rw [hpacked, hnibble, scalePairs_packedPairs]
    refine Prod.ext ?_ (Prod.ext ?_ rfl)
    · unfold q4kBytes
      simp only [Vector.getElem_ofFn]
      exact u16Le_bytes _
    · unfold q4kBytes
      simp only [Vector.getElem_ofFn]
      exact u16Le_bytes _

/-! ### Q6_K -/

theorem toNat_shifted2 (b : UInt8) :
    (b >>> 2).toNat = b.toNat / 4 := by
  rw [UInt8.toNat_shiftRight]
  exact Nat.shiftRight_eq_div_pow _ 2

/-- The code of the decoder, by the values of the bytes: even quarters take the first 32 bytes of a half. -/
theorem q6kCode_value (block : Vector UInt8 210) (half : Fin 2) (k : Fin 4) (l : Fin 32) :
    q6kCode block half k l + 32 =
      (((if k.val < 2 then block[64 * half.val + l.val + 32 * (k.val % 2)].toNat % 16
        else block[64 * half.val + l.val + 32 * (k.val % 2)].toNat / 16) +
          16 * ((getElem block (128 + 32 * half.val + l.val) (Offset.q6k_qh half l)).toNat / 4 ^ k.val % 4) : Nat) : Int) := by
  have hb0 := block[64 * half.val + l.val].toNat_lt
  have hb1 := block[64 * half.val + l.val + 32].toNat_lt
  -- The nibble and the two high bits do not overlap; the code is their sum less 32.
  have hjoined : ∀ {low high : UInt8} {a b : Nat}, low.toNat = a → high.toNat = b → a < 16 → b < 4 →
      ((low ||| (high <<< 4)).toNat : Int) - 32 + 32 = ((a + 16 * b : Nat) : Int) := by
    intro low high a b ha hb ha' hb'
    rw [toNat_joined (by omega) (by omega), ha, hb]
    omega
  -- Quarter `k` finds its two high bits at bit `2 * k` of the shared byte.
  have hpair0 : ∀ h : UInt8, (h &&& 0x03).toNat = h.toNat / 4 ^ 0 % 4 := by
    intro h
    rw [toNat_low2, Nat.pow_zero, Nat.div_one]
  have hpair1 : ∀ h : UInt8, ((h >>> 2) &&& 0x03).toNat = h.toNat / 4 ^ 1 % 4 := by
    intro h
    rw [toNat_low2, toNat_shifted2, Nat.pow_one]
  have hpair2 : ∀ h : UInt8, ((h >>> 4) &&& 0x03).toNat = h.toNat / 4 ^ 2 % 4 := by
    intro h
    rw [toNat_low2, toNat_high]
    rfl
  have hpair3 : ∀ h : UInt8, ((h >>> 6) &&& 0x03).toNat = h.toNat / 4 ^ 3 % 4 := by
    intro h
    rw [toNat_low2, toNat_top2]
    rfl
  unfold q6kCode
  have hk : k = 0 ∨ k = 1 ∨ k = 2 ∨ k = 3 := by omega
  rcases hk with rfl | rfl | rfl | rfl
  -- Quarters 0 and 1 use the low nibbles, 2 and 3 the high ones.
  · exact hjoined (toNat_low _) (hpair0 _) (Nat.mod_lt _ (by decide)) (Nat.mod_lt _ (by decide))
  · exact hjoined (toNat_low _) (hpair1 _) (Nat.mod_lt _ (by decide)) (Nat.mod_lt _ (by decide))
  · exact hjoined (toNat_high _) (hpair2 _) (Nat.div_lt_of_lt_mul hb0) (Nat.mod_lt _ (by decide))
  · exact hjoined (toNat_high _) (hpair3 _) (Nat.div_lt_of_lt_mul hb1) (Nat.mod_lt _ (by decide))

theorem q6kCode_bounds (block : Vector UInt8 210) (half : Fin 2) (k : Fin 4) (l : Fin 32) :
    0 ≤ q6kCode block half k l + 32 ∧ q6kCode block half k l + 32 < 64 := by
  have hb := block[64 * half.val + l.val + 32 * (k.val % 2)].toNat_lt
  rw [q6kCode_value]
  split <;> omega

/-- The 6-bit code of element `i`. -/
def q6kRaw (block : Vector UInt8 210) (i : Fin 256) : Fin 64 :=
  ⟨(q6kCode block ⟨i.val / 128, by omega⟩ ⟨i.val / 32 % 4, by omega⟩ ⟨i.val % 32, by omega⟩ + 32).toNat, by
    have h := q6kCode_bounds block ⟨i.val / 128, by omega⟩ ⟨i.val / 32 % 4, by omega⟩ ⟨i.val % 32, by omega⟩
    omega⟩

theorem q6kRaw_val (block : Vector UInt8 210) (i : Fin 256) : (q6kRaw block i).val =
    (if i.val / 32 % 4 < 2 then block[64 * (i.val / 128) + i.val % 32 + 32 * (i.val / 32 % 4 % 2)].toNat % 16
      else block[64 * (i.val / 128) + i.val % 32 + 32 * (i.val / 32 % 4 % 2)].toNat / 16) +
        16 * (block[128 + 32 * (i.val / 128) + i.val % 32].toNat / 4 ^ (i.val / 32 % 4) % 4) := by
  unfold q6kRaw
  dsimp only
  rw [q6kCode_value]
  rfl

abbrev Q6kCodes := UInt16 × (Fin 16 → Int8) × (Fin 256 → Fin 64)

def q6kCodes (block : Vector UInt8 210) : Q6kCodes :=
  (u16Le (getElem block 208 Offset.q6k_d0) (getElem block 209 Offset.q6k_d1),
    fun j => (getElem block (192 + j.val) (Offset.q6k_scales j)).toInt8, q6kRaw block)

/-- Byte `i` of `ql`, for `i < 128`, and byte `i` of `qh`, for `i < 64`. -/
def q6kLow (c : Fin 256 → Fin 64) (i : Nat) (hi : i < 128) : UInt8 :=
  nibbles ⟨c ⟨128 * (i / 64) + i % 64, by omega⟩ % 16, by omega⟩
    ⟨c ⟨128 * (i / 64) + 64 + i % 64, by omega⟩ % 16, by omega⟩

def q6kHigh (c : Fin 256 → Fin 64) (i : Nat) (hi : i < 64) : UInt8 :=
  UInt8.ofNat (c ⟨128 * (i / 32) + i % 32, by omega⟩ / 16 + 4 * (c ⟨128 * (i / 32) + 32 + i % 32, by omega⟩ / 16) +
    16 * (c ⟨128 * (i / 32) + 64 + i % 32, by omega⟩ / 16) + 64 * (c ⟨128 * (i / 32) + 96 + i % 32, by omega⟩ / 16))

def q6kBytes (c : Q6kCodes) : Vector UInt8 210 :=
  Vector.ofFn fun i => if h : i.val < 128 then q6kLow c.2.2 i.val h
    else if h' : i.val < 192 then q6kHigh c.2.2 (i.val - 128) (by omega)
    else if h'' : i.val < 208 then (c.2.1 ⟨i.val - 192, by omega⟩).toUInt8
    else if i.val = 208 then lowByte c.1 else highByte c.1

theorem q6kLow_q6kRaw (block : Vector UInt8 210) (i : Nat) (hi : i < 128) : q6kLow (q6kRaw block) i hi = block[i] := by
  have hb := block[i].toNat_lt
  -- The two values in byte `i` lie 64 apart, in quarters 0, 1 and 2, 3 of the same half.
  have hquarter : (128 * (i / 64) + i % 64) / 32 % 4 < 2 := by omega
  have hquarter' : ¬(128 * (i / 64) + 64 + i % 64) / 32 % 4 < 2 := by omega
  have hbyte : 64 * ((128 * (i / 64) + i % 64) / 128) + (128 * (i / 64) + i % 64) % 32 +
      32 * ((128 * (i / 64) + i % 64) / 32 % 4 % 2) = i := by omega
  have hbyte' : 64 * ((128 * (i / 64) + 64 + i % 64) / 128) + (128 * (i / 64) + 64 + i % 64) % 32 +
      32 * ((128 * (i / 64) + 64 + i % 64) / 32 % 4 % 2) = i := by omega
  refine UInt8.toNat_inj.mp ?_
  unfold q6kLow
  rw [toNat_nibbles]
  dsimp only
  rw [q6kRaw_val, q6kRaw_val]
  simp only [hquarter, hquarter', if_true, if_false, hbyte, hbyte']
  omega

/-- The four quarters take the bit pairs of one byte in order. -/
theorem q6kRaw_high (block : Vector UInt8 210) (i : Nat) (hi : i < 64) (k : Nat) (hk : k < 4) :
    (q6kRaw block ⟨128 * (i / 32) + 32 * k + i % 32, by omega⟩).val / 16 = block[128 + i].toNat / 4 ^ k % 4 := by
  have hquarter : (128 * (i / 32) + 32 * k + i % 32) / 32 % 4 = k := by omega
  have hbyte : 128 + 32 * ((128 * (i / 32) + 32 * k + i % 32) / 128) + (128 * (i / 32) + 32 * k + i % 32) % 32 =
      128 + i := by omega
  have hlow := block[64 * ((128 * (i / 32) + 32 * k + i % 32) / 128) + (128 * (i / 32) + 32 * k + i % 32) % 32 +
    32 * (k % 2)].toNat_lt
  rw [q6kRaw_val]
  simp only [hquarter, hbyte]
  split <;> omega

theorem q6kHigh_q6kRaw (block : Vector UInt8 210) (i : Nat) (hi : i < 64) :
    q6kHigh (q6kRaw block) i hi = block[128 + i] := by
  have hb := block[128 + i].toNat_lt
  have h0 : (q6kRaw block ⟨128 * (i / 32) + i % 32, by omega⟩).val / 16 = _ := q6kRaw_high block i hi 0 (by decide)
  have h1 : (q6kRaw block ⟨128 * (i / 32) + 32 + i % 32, by omega⟩).val / 16 = _ := q6kRaw_high block i hi 1 (by decide)
  have h2 : (q6kRaw block ⟨128 * (i / 32) + 64 + i % 32, by omega⟩).val / 16 = _ := q6kRaw_high block i hi 2 (by decide)
  have h3 : (q6kRaw block ⟨128 * (i / 32) + 96 + i % 32, by omega⟩).val / 16 = _ := q6kRaw_high block i hi 3 (by decide)
  refine UInt8.toNat_inj.mp ?_
  unfold q6kHigh
  rw [h0, h1, h2, h3, UInt8.toNat_ofNat']
  omega

theorem toNat_q6kHigh (c : Fin 256 → Fin 64) (i : Nat) (hi : i < 64) (k : Nat) (hk : k < 4) :
    (q6kHigh c i hi).toNat / 4 ^ k % 4 = (c ⟨128 * (i / 32) + 32 * k + i % 32, by omega⟩).val / 16 := by
  have h0 := (c ⟨128 * (i / 32) + i % 32, by omega⟩).isLt
  have h1 := (c ⟨128 * (i / 32) + 32 + i % 32, by omega⟩).isLt
  have h2 := (c ⟨128 * (i / 32) + 64 + i % 32, by omega⟩).isLt
  have h3 := (c ⟨128 * (i / 32) + 96 + i % 32, by omega⟩).isLt
  unfold q6kHigh
  rw [UInt8.toNat_ofNat']
  -- The byte is four digits of base 4, one a quarter; digit `k` is read back.
  obtain rfl | rfl | rfl | rfl : k = 0 ∨ k = 1 ∨ k = 2 ∨ k = 3 := by omega
  · simp only [Nat.mul_zero, Nat.add_zero]
    omega
  · simp only [Nat.mul_one]
    omega
  · simp only [Nat.reduceMul]
    omega
  · simp only [Nat.reduceMul]
    omega

theorem q6kRaw_q6kBytes (c : Q6kCodes) : q6kRaw (q6kBytes c) = c.2.2 := by
  funext i
  refine Fin.ext ?_
  have hi := (c.2.2 i).isLt
  -- Where value `i` is stored: its nibble's byte and the byte of its high bits.
  have hlow : 64 * (i.val / 128) + i.val % 32 + 32 * (i.val / 32 % 4 % 2) < 128 := by omega
  have hhigh : ¬128 + 32 * (i.val / 128) + i.val % 32 < 128 := by omega
  have hhigh' : 128 + 32 * (i.val / 128) + i.val % 32 < 192 := by omega
  have hplace : 128 + 32 * (i.val / 128) + i.val % 32 - 128 = 32 * (i.val / 128) + i.val % 32 := by omega
  have hpair := toNat_q6kHigh c.2.2 (32 * (i.val / 128) + i.val % 32) (by omega) (i.val / 32 % 4) (by omega)
  have hself : c.2.2 ⟨128 * ((32 * (i.val / 128) + i.val % 32) / 32) + 32 * (i.val / 32 % 4) +
      (32 * (i.val / 128) + i.val % 32) % 32, by omega⟩ = c.2.2 i := congrArg c.2.2 (Fin.ext (by dsimp only; omega))
  rw [hself] at hpair
  rw [q6kRaw_val]
  unfold q6kBytes
  simp only [Vector.getElem_ofFn, hlow, hhigh, hhigh', dif_pos, dif_neg, not_false_eq_true, hplace, hpair]
  unfold q6kLow
  rw [toNat_nibbles]
  dsimp only
  -- The lower two quarters sit in the low nibble, the upper two in the high nibble.
  split
  next h =>
    have hsame : c.2.2 ⟨128 * ((64 * (i.val / 128) + i.val % 32 + 32 * (i.val / 32 % 4 % 2)) / 64) +
        (64 * (i.val / 128) + i.val % 32 + 32 * (i.val / 32 % 4 % 2)) % 64, by omega⟩ = c.2.2 i :=
      congrArg c.2.2 (Fin.ext (by dsimp only; omega))
    rw [hsame]
    omega
  next h =>
    have hsame : c.2.2 ⟨128 * ((64 * (i.val / 128) + i.val % 32 + 32 * (i.val / 32 % 4 % 2)) / 64) + 64 +
        (64 * (i.val / 128) + i.val % 32 + 32 * (i.val / 32 % 4 % 2)) % 64, by omega⟩ = c.2.2 i :=
      congrArg c.2.2 (Fin.ext (by dsimp only; omega))
    rw [hsame]
    omega

theorem q6kCodes_bijective : Function.Bijective q6kCodes := by
  refine Function.bijective_iff_has_inverse.mpr ⟨q6kBytes, fun block => ?_, fun c => ?_⟩
  · refine Vector.ext fun i hi => ?_
    unfold q6kBytes q6kCodes
    rw [Vector.getElem_ofFn]
    dsimp only
    -- Low nibbles, high bits, the sixteen signed scales, then the scale of the block.
    split
    next h => exact q6kLow_q6kRaw block i h
    next h =>
      split
      next h' =>
        have hplace : 128 + (i - 128) = i := by omega
        rw [q6kHigh_q6kRaw]
        simp only [hplace]
      next h' =>
        split
        next h'' =>
          have hplace : 192 + (i - 192) = i := by omega
          simp only [hplace]
          exact UInt8.toUInt8_toInt8 _
        next h'' =>
          split
          next h => subst h; exact lowByte_u16Le _ _
          next h =>
            obtain rfl : i = 209 := by omega
            exact highByte_u16Le _ _
  -- Each part of the codes is read back from the bytes that carry it.
  · unfold q6kCodes
    rw [q6kRaw_q6kBytes]
    refine Prod.ext ?_ (Prod.ext (funext fun j => ?_) rfl)
    · unfold q6kBytes
      simp only [Vector.getElem_ofFn]
      exact u16Le_bytes _
    · have hlow : ¬192 + j.val < 128 := by omega
      have hmid : ¬192 + j.val < 192 := by omega
      have hscale : 192 + j.val < 208 := by omega
      unfold q6kBytes
      simp only [Vector.getElem_ofFn, hlow, hmid, hscale, dif_pos, dif_neg, not_false_eq_true, Nat.add_sub_cancel_left]
      exact Int8.toInt8_toUInt8 _

end VitniTensor
