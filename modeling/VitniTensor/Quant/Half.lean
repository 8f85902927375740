import Mathlib.Tactic.Ring
import VitniTensor.Binary32
import VitniTensor.Quant.Blocks

/-!
# Half floats

The scales of the blocks are binary16. Reading one is exact, subnormals included; writing one truncates, and takes
every number below the normal halves to zero and every NaN to an infinity.
-/

namespace VitniTensor

/-! ### The values of halves -/

namespace Half

variable (h : UInt16)

def sign : Bool :=
  2 ^ 15 ≤ h.toNat

def exponent : Nat :=
  h.toNat / 2 ^ 10 % 2 ^ 5

def fraction : Nat :=
  h.toNat % 2 ^ 10

def isNaN : Bool :=
  exponent h = 31 ∧ fraction h ≠ 0

/-- The absolute value of a finite half as a multiple of `2^-24`. -/
def magnitude : Nat :=
  if exponent h = 0 then fraction h else (2 ^ 10 + fraction h) * 2 ^ (exponent h - 1)

theorem exponent_lt : exponent h < 32 :=
  Nat.mod_lt _ (by decide)

theorem fraction_lt : fraction h < 2 ^ 10 :=
  Nat.mod_lt _ (by decide)

/-- The three fields make the half. -/
theorem toNat_eq : h.toNat = (sign h).toNat * 2 ^ 15 + exponent h * 2 ^ 10 + fraction h := by
  have hlt : h.toNat < 2 ^ 16 := h.toNat_lt
  have hsign : (sign h).toNat = h.toNat / 2 ^ 15 := by
    unfold sign
    by_cases hneg : 2 ^ 15 ≤ h.toNat
    · rw [decide_eq_true hneg, Bool.toNat_true]
      omega
    · rw [decide_eq_false hneg, Bool.toNat_false]
      omega
  rw [hsign]
  unfold exponent fraction
  omega

end Half

/-! ### Packed bits -/

/-- The three fields of a binary32, put together. -/
theorem toNat_packed {s e m : UInt32} (hs : s.toNat < 2) (he : e.toNat < 2 ^ 8) (hm : m.toNat < 2 ^ 10) :
    ((s <<< 31) ||| (e <<< 23) ||| (m <<< 13)).toNat = s.toNat * 2 ^ 31 + e.toNat * 2 ^ 23 + m.toNat * 2 ^ 13 := by
  have hsign : (s <<< 31).toNat = 2 ^ 31 * s.toNat := by
    rw [UInt32.toNat_shiftLeft, Nat.shiftLeft_eq]
    change s.toNat * 2 ^ 31 % 2 ^ 32 = _
    omega
  have hexp : (e <<< 23).toNat = 2 ^ 23 * e.toNat := by
    rw [UInt32.toNat_shiftLeft, Nat.shiftLeft_eq]
    change e.toNat * 2 ^ 23 % 2 ^ 32 = _
    omega
  have hmant : (m <<< 13).toNat = m.toNat * 2 ^ 13 := by
    rw [UInt32.toNat_shiftLeft, Nat.shiftLeft_eq]
    change m.toNat * 2 ^ 13 % 2 ^ 32 = _
    omega
  -- The three fields do not overlap, so or-ing them adds them.
  rw [UInt32.toNat_or, UInt32.toNat_or, hsign, hexp, hmant, ← Nat.two_pow_add_eq_or_of_lt (by omega),
    show 2 ^ 31 * s.toNat + 2 ^ 23 * e.toNat = 2 ^ 23 * (2 ^ 8 * s.toNat + e.toNat) by omega,
    ← Nat.two_pow_add_eq_or_of_lt (by omega)]
  omega

/-- The fields of a half, in a word. -/
theorem toNat_fields (half : UInt16) :
    ((half >>> 15) &&& 0x1).toUInt32.toNat = (Half.sign half).toNat ∧
      ((half >>> 10) &&& 0x1F).toUInt32.toNat = Half.exponent half ∧
      (half &&& 0x3FF).toUInt32.toNat = Half.fraction half := by
  have hlt : half.toNat < 2 ^ 16 := half.toNat_lt
  refine ⟨?_, ?_, ?_⟩
  -- Sign, exponent and fraction by shifts and masks, which are quotients and remainders.
  · rw [UInt16.toNat_toUInt32, UInt16.toNat_and, UInt16.toNat_shiftRight]
    change half.toNat >>> 15 &&& 2 ^ 1 - 1 = _
    rw [Nat.and_two_pow_sub_one_eq_mod, Nat.shiftRight_eq_div_pow]
    have hfields := Half.toNat_eq half
    have hexp := Half.exponent_lt half
    have hmant := Half.fraction_lt half
    have hbit := Bool.toNat_lt (Half.sign half)
    omega
  · rw [UInt16.toNat_toUInt32, UInt16.toNat_and, UInt16.toNat_shiftRight]
    change half.toNat >>> 10 &&& 2 ^ 5 - 1 = _
    rw [Nat.and_two_pow_sub_one_eq_mod, Nat.shiftRight_eq_div_pow]
    rfl
  · rw [UInt16.toNat_toUInt32, UInt16.toNat_and]
    change half.toNat &&& 2 ^ 10 - 1 = _
    rw [Nat.and_two_pow_sub_one_eq_mod]
    rfl

/-! ### Subnormal halves -/

/-- The loop doubles a mantissa until it is normal, and counts down as often. -/
theorem normalizeSubnormal_scales (rounds : Nat) {m : UInt32} (e : Int) (hm : m.toNat < 0x800)
    (hreach : 0x400 ≤ m.toNat * 2 ^ rounds) :
    ∃ j ≤ rounds, (normalizeSubnormal rounds m e).1.toNat = m.toNat * 2 ^ j ∧
      (normalizeSubnormal rounds m e).2 = e - j ∧ 0x400 ≤ m.toNat * 2 ^ j ∧ m.toNat * 2 ^ j < 0x800 := by
  -- Induction on the rounds left; each doubles the fraction until bit 10 is reached.
  induction rounds generalizing m e with
  | zero => exact ⟨0, Nat.le_refl 0, by simp [normalizeSubnormal], by simp [normalizeSubnormal], hreach, by omega⟩
  | succ rounds ih =>
    unfold normalizeSubnormal
    by_cases hlow : m.toNat < 0x400
    · rw [if_pos ((bit10_eq_zero_iff hm).mpr hlow)]
      have hdouble : (m <<< 1).toNat = 2 * m.toNat := by
        rw [UInt32.toNat_shiftLeft, Nat.shiftLeft_eq]
        change m.toNat * 2 ^ 1 % 2 ^ 32 = _
        omega
      have hscaled : ∀ j, 2 * m.toNat * 2 ^ j = m.toNat * 2 ^ (j + 1) := fun j => by
        rw [Nat.pow_succ, Nat.mul_comm 2, Nat.mul_assoc, Nat.mul_comm 2]
      obtain ⟨j, hj, hvalue, hexp, hlow', hhigh⟩ := @ih (m <<< 1) (e - 1) (by omega) (by rw [hdouble, hscaled]; exact hreach)
      rw [hdouble, hscaled] at hvalue hlow' hhigh
      exact ⟨j + 1, by omega, hvalue, by omega, hlow', hhigh⟩
    -- Bit 10 is set: the loop ends.
    · rw [if_neg fun hzero => hlow ((bit10_eq_zero_iff hm).mp hzero)]
      exact ⟨0, Nat.zero_le _, by simp, by simp, by simpa using hlow, by simpa using hm⟩

/-! ### Reading a half -/

namespace Binary32

/-- The fields of packed bits. -/
theorem fields {x : Binary32} {negative : Bool} {e f : Nat} (he : e < 2 ^ 8) (hf : f < 2 ^ 23)
    (h : x.bits.toNat = negative.toNat * 2 ^ 31 + e * 2 ^ 23 + f) :
    x.sign = negative ∧ x.exponent = e ∧ x.fraction = f := by
  have hbit := Bool.toNat_lt negative
  refine ⟨?_, ?_, ?_⟩
  · unfold sign
    cases negative with
    | false =>
      rw [Bool.toNat_false] at h
      exact decide_eq_false (by omega)
    | true =>
      rw [Bool.toNat_true] at h
      exact decide_eq_true (by omega)
  · unfold exponent
    omega
  · unfold fraction
    omega

end Binary32

section Reading

variable {half : UInt16}

theorem bits_zero (hexp : Half.exponent half = 0) (hzero : Half.fraction half = 0) :
    (f16ToF32 half : Binary32).bits.toNat = (Half.sign half).toNat * 2 ^ 31 + 0 * 2 ^ 23 + 0 := by
  obtain ⟨hs, he, hm⟩ := toNat_fields half
  have hexp' : ((half >>> 10) &&& 0x1F).toUInt32 = 0 := UInt32.toNat_inj.mp (he.trans hexp)
  have hmant' : (half &&& 0x3FF).toUInt32 = 0 := UInt32.toNat_inj.mp (hm.trans hzero)
  have hbit := Bool.toNat_lt (Half.sign half)
  unfold f16ToF32
  simp only [hexp', hmant', if_true]
  change (((half >>> 15) &&& 0x1).toUInt32 <<< 31).toNat = _
  rw [UInt32.toNat_shiftLeft, Nat.shiftLeft_eq, hs]
  change (Half.sign half).toNat * 2 ^ 31 % 2 ^ 32 = _
  omega

/-- A subnormal half, with its mantissa shifted up. -/
theorem bits_subnormal (hexp : Half.exponent half = 0) (hsome : Half.fraction half ≠ 0) :
    ∃ j ≤ 10, 2 ^ 10 ≤ Half.fraction half * 2 ^ j ∧ Half.fraction half * 2 ^ j < 2 ^ 11 ∧
      (f16ToF32 half : Binary32).bits.toNat =
        (Half.sign half).toNat * 2 ^ 31 + (113 - j) * 2 ^ 23 + (Half.fraction half * 2 ^ j - 2 ^ 10) * 2 ^ 13 := by
  obtain ⟨hs, he, hm⟩ := toNat_fields half
  have hlt := Half.fraction_lt half
  have hbit := Bool.toNat_lt (Half.sign half)
  -- Ten rounds suffice: a fraction that is not zero has a bit among ten.
  obtain ⟨j, hj, hvalue, hcount, hlow, hhigh⟩ := @normalizeSubnormal_scales 10 (half &&& 0x3FF).toUInt32 1
    (by rw [hm]; omega) (by rw [hm]; omega)
  rw [hm] at hvalue hlow hhigh
  have hexp' : ((half >>> 10) &&& 0x1F).toUInt32 = 0 := UInt32.toNat_inj.mp (he.trans hexp)
  have hmant' : (half &&& 0x3FF).toUInt32 ≠ 0 := fun hzero => hsome (by rw [← hm, hzero]; rfl)
  refine ⟨j, hj, hlow, hhigh, ?_⟩
  have hexponent : (UInt32.ofNat (127 - 15 + (normalizeSubnormal 10 (half &&& 0x3FF).toUInt32 1).2).toNat).toNat = 113 - j := by
    rw [hcount, UInt32.toNat_ofNat_of_lt' (by simp only [UInt32.size]; omega)]
    omega
  -- The leading one is masked off, becoming the implicit bit of the wider format.
  have hmantissa : ((normalizeSubnormal 10 (half &&& 0x3FF).toUInt32 1).1 &&& 0x3FF).toNat =
      Half.fraction half * 2 ^ j - 2 ^ 10 := by
    rw [UInt32.toNat_and, hvalue]
    change _ &&& 2 ^ 10 - 1 = _
    rw [Nat.and_two_pow_sub_one_eq_mod]
    omega
  unfold f16ToF32
  simp only [hexp', if_true, if_neg hmant']
  have hpacked := toNat_packed (hs.trans_lt hbit) (hexponent.trans_lt (by omega))
    (hmantissa.trans_lt (by omega))
  rw [hs, hexponent, hmantissa] at hpacked
  exact hpacked

theorem bits_normal (hexp : Half.exponent half ≠ 0) (hfinite : Half.exponent half ≠ 31) :
    (f16ToF32 half : Binary32).bits.toNat =
      (Half.sign half).toNat * 2 ^ 31 + (Half.exponent half + 112) * 2 ^ 23 + Half.fraction half * 2 ^ 13 := by
  obtain ⟨hs, he, hm⟩ := toNat_fields half
  have hlt := Half.exponent_lt half
  have hmlt := Half.fraction_lt half
  have hbit := Bool.toNat_lt (Half.sign half)
  have hexp' : ((half >>> 10) &&& 0x1F).toUInt32 ≠ 0 := fun hzero => hexp (by rw [← he, hzero]; rfl)
  have hfinite' : ((half >>> 10) &&& 0x1F).toUInt32 ≠ 0x1F := fun htop => hfinite (by rw [← he, htop]; rfl)
  -- Adding 127 and taking 15 away does not wrap, from either side.
  have hbias : (((half >>> 10) &&& 0x1F).toUInt32 + 127 - 15).toNat = Half.exponent half + 112 := by
    rw [UInt32.toNat_sub, UInt32.toNat_add, he]
    change (2 ^ 32 - 15 + (Half.exponent half + 127) % 2 ^ 32) % 2 ^ 32 = _
    omega
  unfold f16ToF32
  simp only [if_neg hexp', if_neg hfinite']
  have hpacked := toNat_packed (hs.trans_lt hbit) (hbias.trans_lt (by omega)) (hm.trans_lt hmlt)
  rw [hs, hbias, hm] at hpacked
  exact hpacked

theorem bits_special (hexp : Half.exponent half = 31) :
    (f16ToF32 half : Binary32).bits.toNat =
      (Half.sign half).toNat * 2 ^ 31 + 255 * 2 ^ 23 + Half.fraction half * 2 ^ 13 := by
  obtain ⟨hs, he, hm⟩ := toNat_fields half
  have hmlt := Half.fraction_lt half
  have hbit := Bool.toNat_lt (Half.sign half)
  have hexp' : ((half >>> 10) &&& 0x1F).toUInt32 = 0x1F := UInt32.toNat_inj.mp (he.trans hexp)
  unfold f16ToF32
  simp only [hexp', if_true, if_neg (show (0x1F : UInt32) ≠ 0 by decide)]
  rw [show (0x7F800000 : UInt32) = (255 : UInt32) <<< (23 : UInt32) by decide]
  have hpacked := @toNat_packed _ 255 _ (hs.trans_lt hbit) (by decide) (hm.trans_lt hmlt)
  rw [hs, hm] at hpacked
  exact hpacked

end Reading

/-- **Reading a half is exact**: the sign and the value of every finite half, subnormals included, and the payload of
every infinity and NaN. -/
theorem f16ToF32_exact (half : UInt16) :
    (f16ToF32 half : Binary32).sign = Half.sign half ∧
      (Half.exponent half ≠ 31 → (f16ToF32 half : Binary32).exponent ≠ 255 ∧
        (f16ToF32 half : Binary32).magnitude = Half.magnitude half * 2 ^ 125) ∧
      (Half.exponent half = 31 → (f16ToF32 half : Binary32).exponent = 255 ∧
        (f16ToF32 half : Binary32).fraction = Half.fraction half * 2 ^ 13) := by
  have hlt := Half.exponent_lt half
  have hmlt := Half.fraction_lt half
  by_cases hexp : Half.exponent half = 0
  · by_cases hzero : Half.fraction half = 0
    -- a zero keeps its sign
    · obtain ⟨hsign, hexponent, hfraction⟩ := Binary32.fields (by decide) (by decide) (bits_zero hexp hzero)
      refine ⟨hsign, fun _ => ⟨by omega, ?_⟩, fun htop => by omega⟩
      rw [Binary32.magnitude, if_pos hexponent, hfraction, Half.magnitude, if_pos hexp, hzero, Nat.zero_mul]
    -- the `j` shifts of a subnormal are taken back by the exponent
    · obtain ⟨j, hj, hlow, hhigh, hbits⟩ := bits_subnormal hexp hzero
      obtain ⟨hsign, hexponent, hfraction⟩ := Binary32.fields (by omega) (by omega) hbits
      refine ⟨hsign, fun _ => ⟨by omega, ?_⟩, fun htop => by omega⟩
      have hshift : 2 ^ j * 2 ^ (112 - j) = 2 ^ 112 := by
        rw [← Nat.pow_add, Nat.add_sub_cancel' (by omega)]
      rw [Binary32.magnitude, if_neg (by omega), hexponent, hfraction, Half.magnitude, if_pos hexp]
      calc (2 ^ 23 + (Half.fraction half * 2 ^ j - 2 ^ 10) * 2 ^ 13) * 2 ^ (113 - j - 1)
          = Half.fraction half * 2 ^ j * 2 ^ 13 * 2 ^ (112 - j) := by
            rw [show 113 - j - 1 = 112 - j by omega,
              show 2 ^ 23 + (Half.fraction half * 2 ^ j - 2 ^ 10) * 2 ^ 13 = Half.fraction half * 2 ^ j * 2 ^ 13 by omega]
        _ = Half.fraction half * (2 ^ j * 2 ^ (112 - j)) * 2 ^ 13 := by ring
        _ = Half.fraction half * 2 ^ 125 := by rw [hshift, Nat.mul_assoc, ← Nat.pow_add]
  · by_cases hfinite : Half.exponent half = 31
    · obtain ⟨hsign, hexponent, hfraction⟩ := Binary32.fields (by decide) (by omega) (bits_special hfinite)
      exact ⟨hsign, fun hnot => absurd hfinite hnot, fun _ => ⟨hexponent, hfraction⟩⟩
    -- a normal half gets the other bias and 13 zero bits
    · obtain ⟨hsign, hexponent, hfraction⟩ := Binary32.fields (by omega) (by omega) (bits_normal hexp hfinite)
      refine ⟨hsign, fun _ => ⟨by omega, ?_⟩, fun htop => absurd htop hfinite⟩
      obtain ⟨e, he⟩ := Nat.exists_eq_succ_of_ne_zero hexp
      rw [Binary32.magnitude, if_neg (by omega), hexponent, hfraction, Half.magnitude, if_neg hexp, he]
      calc (2 ^ 23 + Half.fraction half * 2 ^ 13) * 2 ^ (e + 1 + 112 - 1)
          = (2 ^ 10 + Half.fraction half) * 2 ^ 13 * 2 ^ (e + 112) := by
            rw [show e + 1 + 112 - 1 = e + 112 by omega,
              show 2 ^ 23 + Half.fraction half * 2 ^ 13 = (2 ^ 10 + Half.fraction half) * 2 ^ 13 by omega]
        _ = (2 ^ 10 + Half.fraction half) * 2 ^ (e + 1 - 1) * 2 ^ 125 := by
            rw [Nat.add_sub_cancel, Nat.mul_assoc, Nat.mul_assoc, ← Nat.pow_add, ← Nat.pow_add]
            congr 2
            omega

/-! ### Writing a half -/

def f32ToF16 {F : Type} [F32 F] (f : F) : UInt16 :=
  let bits := F32.toBits f
  let sign := ((bits >>> 31) &&& 0x1).toUInt16
  let exp : Int := ((bits >>> 23) &&& 0xFF).toNat - 127 + 15
  let mant := (bits >>> 13) &&& 0x3FF
  -- underflow: a scale is never written as a subnormal
  if exp ≤ 0 then sign <<< 15
  -- overflow, and every NaN with it
  else if exp ≥ 0x1F then (sign <<< 15) ||| 0x7C00
  else (sign <<< 15) ||| (UInt16.ofNat exp.toNat <<< 10) ||| mant.toUInt16

/-- The fields of a half, put together. -/
theorem toNat_packedHalf {s e m : UInt16} (hs : s.toNat < 2) (he : e.toNat < 2 ^ 5) (hm : m.toNat < 2 ^ 10) :
    ((s <<< 15) ||| (e <<< 10) ||| m).toNat = s.toNat * 2 ^ 15 + e.toNat * 2 ^ 10 + m.toNat := by
  have hsign : (s <<< 15).toNat = 2 ^ 15 * s.toNat := by
    rw [UInt16.toNat_shiftLeft, Nat.shiftLeft_eq]
    change s.toNat * 2 ^ 15 % 2 ^ 16 = _
    omega
  have hexp : (e <<< 10).toNat = 2 ^ 10 * e.toNat := by
    rw [UInt16.toNat_shiftLeft, Nat.shiftLeft_eq]
    change e.toNat * 2 ^ 10 % 2 ^ 16 = _
    omega
  rw [UInt16.toNat_or, UInt16.toNat_or, hsign, hexp, ← Nat.two_pow_add_eq_or_of_lt (by omega),
    show 2 ^ 15 * s.toNat + 2 ^ 10 * e.toNat = 2 ^ 10 * (2 ^ 5 * s.toNat + e.toNat) by omega,
    ← Nat.two_pow_add_eq_or_of_lt (by omega)]
  omega

section Writing

variable (x : Binary32)

/-- The fields of a binary32, in half words. -/
theorem toNat_binary32 : ((x.bits >>> 31) &&& 0x1).toUInt16.toNat = x.sign.toNat ∧
    ((x.bits >>> 23) &&& 0xFF).toNat = x.exponent ∧ ((x.bits >>> 13) &&& 0x3FF).toUInt16.toNat = x.fraction / 2 ^ 13 := by
  have hlt : x.bits.toNat < 2 ^ 32 := x.bits.toNat_lt
  refine ⟨?_, ?_, ?_⟩
  -- The sign is the top bit.
  · rw [UInt32.toNat_toUInt16, UInt32.toNat_and, UInt32.toNat_shiftRight]
    change (x.bits.toNat >>> 31 &&& 2 ^ 1 - 1) % 2 ^ 16 = _
    rw [Nat.and_two_pow_sub_one_eq_mod, Nat.shiftRight_eq_div_pow]
    unfold Binary32.sign
    by_cases hneg : 2 ^ 31 ≤ x.bits.toNat
    · rw [decide_eq_true hneg, Bool.toNat_true]
      omega
    · rw [decide_eq_false hneg, Bool.toNat_false]
      omega
  · rw [UInt32.toNat_and, UInt32.toNat_shiftRight]
    change x.bits.toNat >>> 23 &&& 2 ^ 8 - 1 = _
    rw [Nat.and_two_pow_sub_one_eq_mod, Nat.shiftRight_eq_div_pow]
    rfl
  -- The fraction keeps its upper ten bits.
  · rw [UInt32.toNat_toUInt16, UInt32.toNat_and, UInt32.toNat_shiftRight]
    change (x.bits.toNat >>> 13 &&& 2 ^ 10 - 1) % 2 ^ 16 = _
    rw [Nat.and_two_pow_sub_one_eq_mod, Nat.shiftRight_eq_div_pow]
    unfold Binary32.fraction
    omega

/-- Below the normal halves, above them, and between. -/
theorem toNat_f32ToF16 : (f32ToF16 x).toNat = x.sign.toNat * 2 ^ 15 +
    if x.exponent ≤ 112 then 0 else if 143 ≤ x.exponent then 31 * 2 ^ 10
      else (x.exponent - 112) * 2 ^ 10 + x.fraction / 2 ^ 13 := by
  obtain ⟨hs, he, hm⟩ := toNat_binary32 x
  have hbit := Bool.toNat_lt x.sign
  have hmlt : x.fraction < 2 ^ 23 := Nat.mod_lt _ (by decide)
  have hsign : (((x.bits >>> 31) &&& 0x1).toUInt16 <<< 15).toNat = x.sign.toNat * 2 ^ 15 := by
    rw [UInt16.toNat_shiftLeft, Nat.shiftLeft_eq, hs]
    change x.sign.toNat * 2 ^ 15 % 2 ^ 16 = _
    omega
  have hbits : F32.toBits x = x.bits := rfl
  unfold f32ToF16
  simp only [hbits, he]
  -- Too small, too large, or in range: the three branches of the source.
  by_cases hlow : x.exponent ≤ 112
  · rw [if_pos (by omega), if_pos hlow, hsign, Nat.add_zero]
  · rw [if_neg (by omega), if_neg hlow]
    by_cases hhigh : 143 ≤ x.exponent
    · rw [if_pos (by omega), if_pos hhigh, show (0x7C00 : UInt16) = (31 : UInt16) <<< (10 : UInt16) by decide]
      have hpacked := @toNat_packedHalf _ 31 0 (hs.trans_lt hbit) (by decide) (by decide)
      rw [hs, UInt16.or_zero, show (31 : UInt16).toNat = 31 from rfl, show (0 : UInt16).toNat = 0 from rfl,
        Nat.add_zero] at hpacked
      exact hpacked
    -- In range, the rebiased exponent is positive, so its conversion loses nothing.
    · have hexponent : (UInt16.ofNat ((x.exponent : Int) - 127 + 15).toNat).toNat = x.exponent - 112 := by
        rw [UInt16.toNat_ofNat_of_lt' (by simp only [UInt16.size]; omega)]
        omega
      have hpacked := toNat_packedHalf (hs.trans_lt hbit) (hexponent.trans_lt (by omega))
        (hm.trans_lt (by omega))
      rw [hs, hexponent, hm] at hpacked
      rw [if_neg (by omega), if_neg hhigh, hpacked, Nat.add_assoc]

/-- The fields of what is written. -/
theorem fields_f32ToF16 : Half.sign (f32ToF16 x) = x.sign ∧
    (x.exponent ≤ 112 → Half.magnitude (f32ToF16 x) = 0) ∧
    (143 ≤ x.exponent → Half.exponent (f32ToF16 x) = 31 ∧ Half.fraction (f32ToF16 x) = 0) ∧
    (112 < x.exponent → x.exponent < 143 → Half.exponent (f32ToF16 x) = x.exponent - 112 ∧
      Half.fraction (f32ToF16 x) = x.fraction / 2 ^ 13) := by
  have hvalue := toNat_f32ToF16 x
  have hbit := Bool.toNat_lt x.sign
  have hmlt : x.fraction < 2 ^ 23 := Nat.mod_lt _ (by decide)
  -- what stands below the sign fits in 15 bits
  have hrest : (if x.exponent ≤ 112 then 0 else if 143 ≤ x.exponent then 31 * 2 ^ 10
      else (x.exponent - 112) * 2 ^ 10 + x.fraction / 2 ^ 13) < 2 ^ 15 := by
    split
    next => decide
    next => split <;> omega
  refine ⟨?_, fun hlow => ?_, fun hhigh => ?_, fun hlow hhigh => ?_⟩
  · unfold Half.sign
    rw [hvalue]
    cases x.sign with
    | false =>
      rw [Bool.toNat_false]
      exact decide_eq_false (by omega)
    | true =>
      rw [Bool.toNat_true]
      exact decide_eq_true (by omega)
  · rw [if_pos hlow] at hvalue
    unfold Half.magnitude Half.exponent Half.fraction
    rw [hvalue, if_pos (by omega)]
    omega
  · rw [if_neg (by omega), if_pos hhigh] at hvalue
    unfold Half.exponent Half.fraction
    constructor <;> omega
  · rw [if_neg (by omega), if_neg (by omega)] at hvalue
    unfold Half.exponent Half.fraction
    constructor <;> omega

/-- **Writing a half truncates**: the sign stays; what is below the normal halves becomes a zero, what is above the finite
halves an infinity, and between the value is cut off towards zero by less than one unit in the last place. -/
theorem f32ToF16_truncates : Half.sign (f32ToF16 x) = x.sign ∧
    (x.exponent ≤ 112 → Half.magnitude (f32ToF16 x) = 0) ∧
    (143 ≤ x.exponent → Half.exponent (f32ToF16 x) = 31 ∧ Half.fraction (f32ToF16 x) = 0) ∧
    (112 < x.exponent → x.exponent < 143 → Half.magnitude (f32ToF16 x) * 2 ^ 125 ≤ x.magnitude ∧
      x.magnitude < (Half.magnitude (f32ToF16 x) + 2 ^ (Half.exponent (f32ToF16 x) - 1)) * 2 ^ 125) := by
  obtain ⟨hsign, hlow, hhigh, hbetween⟩ := fields_f32ToF16 x
  refine ⟨hsign, hlow, hhigh, fun habove hbelow => ?_⟩
  obtain ⟨hexponent, hfraction⟩ := hbetween habove hbelow
  -- a unit of the half is 2^13 units of the float
  have hunit : 2 ^ (Half.exponent (f32ToF16 x) - 1) * 2 ^ 125 = 2 ^ 13 * 2 ^ (x.exponent - 1) := by
    rw [hexponent, ← Nat.pow_add, ← Nat.pow_add]
    congr 1
    omega
  have hmagnitude : Half.magnitude (f32ToF16 x) = (2 ^ 10 + x.fraction / 2 ^ 13) * 2 ^ (Half.exponent (f32ToF16 x) - 1) := by
    rw [Half.magnitude, if_neg (by omega), hfraction]
  rw [hmagnitude, Binary32.magnitude, if_neg (by omega), ← Nat.succ_mul, Nat.mul_assoc, Nat.mul_assoc, hunit, ← Nat.mul_assoc,
    ← Nat.mul_assoc]
  have hcut := Nat.div_add_mod x.fraction (2 ^ 13)
  have hrest := Nat.mod_lt x.fraction (Nat.two_pow_pos 13)
  exact ⟨Nat.mul_le_mul_right _ (by omega), Nat.mul_lt_mul_of_pos_right (by omega) (Nat.two_pow_pos _)⟩

end Writing

/-- **Halves that survive**: reading a half and writing it again gives the half back, exactly for those that are neither
subnormal nor NaNs. -/
theorem f32ToF16_f16ToF32_iff (half : UInt16) : f32ToF16 (f16ToF32 half : Binary32) = half ↔
    ¬(Half.exponent half = 0 ∧ Half.fraction half ≠ 0) ∧ Half.isNaN half = false := by
  have hlt := Half.exponent_lt half
  have hmlt := Half.fraction_lt half
  have hhalf := Half.toNat_eq half
  have hwritten := toNat_f32ToF16 (f16ToF32 half)
  have hnan : Half.isNaN half = false ↔ ¬(Half.exponent half = 31 ∧ Half.fraction half ≠ 0) := decide_eq_false_iff_not
  rw [hnan, ← UInt16.toNat_inj]
  by_cases hexp : Half.exponent half = 0
  · by_cases hzero : Half.fraction half = 0
    · obtain ⟨hsign, hexponent, -⟩ := Binary32.fields (by decide) (by decide) (bits_zero hexp hzero)
      rw [hsign, if_pos (by omega)] at hwritten
      omega
    · obtain ⟨j, hj, hlow, hhigh, hbits⟩ := bits_subnormal hexp hzero
      obtain ⟨hsign, hexponent, -⟩ := Binary32.fields (by omega) (by omega) hbits
      have hshifted : 0 < j := by
        by_contra hnone
        rw [Nat.eq_zero_of_not_pos hnone, Nat.pow_zero, Nat.mul_one] at hlow
        omega
      -- the float is below the normal halves, and is written as a zero
      rw [hsign, if_pos (by omega)] at hwritten
      omega
  · by_cases hfinite : Half.exponent half = 31
    -- an infinity is written as such, and so is a NaN
    · obtain ⟨hsign, hexponent, -⟩ := Binary32.fields (by decide) (by omega) (bits_special hfinite)
      rw [hsign, hexponent, if_neg (by decide), if_pos (by decide)] at hwritten
      omega
    · obtain ⟨hsign, hexponent, hfraction⟩ := Binary32.fields (by omega) (by omega) (bits_normal hexp hfinite)
      rw [hsign, hexponent, hfraction, if_neg (by omega), if_neg (by omega)] at hwritten
      omega

end VitniTensor
