import VitniTensor.Binary32
import VitniTensor.Lib.Loop
import VitniTensor.Quant.Decoded
import VitniTensor.Quant.Integer
import Mathlib.Algebra.BigOperators.Pi

/-!
# Exact integer dot products

A checked operation that goes through is exact, so the accumulators of a block dot are the sums of the
decoder's codes against the quantized activations, on every path.
-/

namespace VitniTensor

open Outcome Loop

variable {F : Type} [F32 F]

/-! ### Checked operations are exact -/

theorem int32_eq {v r : Int} (h : int32 v = .ok r) : r = v := by
  unfold int32 at h
  split at h
  next => exact (Except.ok.inj h).symm
  next => cases h

theorem mac_eq {s a b r : Int} (h : mac s a b = .ok r) : r = s + a * b := by
  obtain ⟨p, hp, hr⟩ := bind_eq_ok.mp h
  rw [int32_eq hr, int32_eq hp]

theorem macBelow_eq {n i : Nat} {s code r : Int} {x : Int8} (h : macBelow n i s code x = .ok r) :
    r = s + if i < n then code * x.toInt else 0 := by
  unfold macBelow at h
  split at h
  next hi => rw [if_pos hi, mac_eq h]
  next hi => rw [if_neg hi, Int.add_zero, Except.ok.inj h]

theorem mac2_eq {acc a x b y r : Int} (h : mac2 acc a x b y = .ok r) : r = acc + (a * x + b * y) := by
  obtain ⟨p, hp, h⟩ := bind_eq_ok.mp h
  obtain ⟨q, hq, h⟩ := bind_eq_ok.mp h
  obtain ⟨s, hs, h⟩ := bind_eq_ok.mp h
  rw [int32_eq h, int32_eq hs, int32_eq hp, int32_eq hq]

/-! ### Group sums -/

omit [F32 F] in
/-- Cell `j` of the sums moves with the one code of its group that is set. -/
private theorem sum_set_code (qs : Vector Int8 256) {i : Nat} (hi : i < 256) (hzero : qs[i] = 0) (q : Int8) (j : Nat)
    (hj : j < 8) : ∑ l : Fin 32, (qs.set i q)[32 * j + l.val].toInt =
      (∑ l : Fin 32, qs[32 * j + l.val].toInt) + if i / 32 = j then q.toInt else 0 := by
  -- Only the sum of the group of `i` changes, and there the old code was zero.
  by_cases hgroup : i / 32 = j
  · have hterm : ∀ l : Fin 32, (qs.set i q)[32 * j + l.val].toInt =
        qs[32 * j + l.val].toInt + if l = ⟨i % 32, Nat.mod_lt _ (by decide)⟩ then q.toInt else 0 := by
      intro l
      by_cases hl : i = 32 * j + l.val
      · have hself : l = ⟨i % 32, Nat.mod_lt _ (by decide)⟩ := Fin.ext (by dsimp only; omega)
        subst hl
        rw [Vector.getElem_set_self, if_pos hself, hzero]
        simp
      · have hne : ¬l = ⟨i % 32, Nat.mod_lt _ (by decide)⟩ := by
          intro heq
          have hval : l.val = i % 32 := congrArg Fin.val heq
          omega
        rw [Vector.getElem_set_ne _ _ hl, if_neg hne, Int.add_zero]
    rw [Finset.sum_congr rfl fun l _ => hterm l, Finset.sum_add_distrib, Finset.sum_ite_eq', if_pos hgroup]
    simp
  · rw [if_neg hgroup, Int.add_zero]
    refine Finset.sum_congr rfl fun l _ => ?_
    rw [Vector.getElem_set_ne]
    omega

/-- The loop invariant: the codes from the index on are still zero, and `bsums` sums the groups. -/
private theorem q8Codes_sums {inv : F} {x : List F} {i : Nat} {qs qs' : Vector Int8 256} {bsums bsums' : Vector Int 8}
    (hzero : ∀ k (hk : k < 256), i ≤ k → qs[k] = 0)
    (hsums : ∀ j (hj : j < 8), bsums[j] = ∑ l : Fin 32, qs[32 * j + l.val].toInt)
    (hrun : q8Codes inv i x (qs, bsums) = .ok (qs', bsums')) :
    (∀ k (hk : k < 256), i + x.length ≤ k → qs'[k] = 0) ∧
      ∀ j (hj : j < 8), bsums'[j] = ∑ l : Fin 32, qs'[32 * j + l.val].toInt := by
  -- Induction on the values left: codes from `i` on are still zero, sums match the codes so
  -- far.
  induction x generalizing i qs bsums with
  | nil =>
    cases hrun
    exact ⟨hzero, hsums⟩
  | cons v x ih =>
    unfold q8Codes at hrun
    split at hrun
    next hi =>
      -- A code fits a signed byte, so storing it loses nothing.
      have hcode := natAbs_q8Code inv v
      have hq : (Int8.ofInt (q8Code inv v)).toInt = q8Code inv v := Int8.toInt_ofInt_of_le (by omega) (by omega)
      obtain ⟨sum, hsum, hrest⟩ := bind_eq_ok.mp hrun
      have hlength : i + (v :: x).length = i + 1 + x.length := by
        rw [List.length_cons]
        omega
      rw [hlength]
      refine ih (fun k hk hik => ?_) (fun j hj => ?_) hrest
      · rw [Vector.getElem_set_ne _ _ (by omega)]
        exact hzero k hk (by omega)
      -- The sum that gains the code is the one of its own group of 32.
      · rw [sum_set_code qs hi (hzero i hi (Nat.le_refl i)) _ j hj, ← hsums j hj, hq]
        by_cases hgroup : i / 32 = j
        · subst hgroup
          rw [Vector.getElem_set_self, if_pos rfl, int32_eq hsum]
        · rw [Vector.getElem_set_ne _ _ hgroup, if_neg hgroup, Int.add_zero]
    next => cases hrun

/-- What a quantized block holds: no code past the activations, and the exact sum of each group. -/
structure Q8Block.Sums (q : Q8Block F) (n : Nat) : Prop where
  rest : ∀ i (h : i < 256), n ≤ i → q.qs[i] = 0
  sums : ∀ j (h : j < 8), q.bsums[j] = ∑ l : Fin 32, q.qs[32 * j + l.val].toInt

theorem quantizeBlockQ8_sums {x : List F} {q : Q8Block F} (h : quantizeBlockQ8 x = .ok q) : q.Sums x.length := by
  unfold quantizeBlockQ8 at h
  split at h
  next => cases h
  next =>
    obtain ⟨s, hs, h⟩ := bind_eq_ok.mp h
    obtain ⟨hrest, hsums⟩ := q8Codes_sums (by simp) (by simp) hs
    cases h
    exact ⟨fun i hi hn => hrest i hi (by omega), hsums⟩

/-! ### The vector path -/

/-- The lanes of a NEON register, of `bits` bits each. A lane that would wrap stops the run. -/
def lanes (bits : Nat) {n : Nat} (v : Fin n → Int) : Res (Fin n → Int) :=
  if ∀ j, -2 ^ (bits - 1) ≤ v j ∧ v j < 2 ^ (bits - 1) then .ok v else .error (.panic .overflow)

/-- `vld1q_u8` and `vld1q_s8`: 16 lanes from `at` on. -/
def vld1q {α : Type} (s : List α) (start : Nat) : Res (Fin 16 → α) :=
  if h : start + 16 ≤ s.length then .ok fun i => s.get ⟨start + i.val, by omega⟩
  else .error (.panic .outOfRange)

def vandqU8 (a b : Fin 16 → UInt8) : Fin 16 → UInt8 := fun i => a i &&& b i
def vdupqNU8 (v : UInt8) : Fin 16 → UInt8 := fun _ => v
def vshrqNU8 (v : Fin 16 → UInt8) (n : UInt8) : Fin 16 → UInt8 := fun i => v i >>> n
def vreinterpretqS8U8 (v : Fin 16 → UInt8) : Fin 16 → Int8 := fun i => (v i).toInt8
def vgetLowS8 (v : Fin 16 → Int8) : Fin 8 → Int8 := fun i => v ⟨i.val, by omega⟩
def vgetHighS8 (v : Fin 16 → Int8) : Fin 8 → Int8 := fun i => v ⟨8 + i.val, by omega⟩

/-- The widening product, into `i16` lanes. -/
def vmullS8 (a b : Fin 8 → Int8) : Res (Fin 8 → Int) :=
  lanes 16 fun i => (a i).toInt * (b i).toInt

/-- Neighbours added and accumulated, in `i32` lanes. -/
def vpadalqS16 (acc : Fin 4 → Int) (p : Fin 8 → Int) : Res (Fin 4 → Int) :=
  lanes 32 fun j => acc j + (p ⟨2 * j.val, Offset.pair_low j⟩ + p ⟨2 * j.val + 1, Offset.pair_high j⟩)

section

local instance lanes_pos : NeZero 4 := ⟨by decide⟩

def vaddvqS32 (a : Fin 4 → Int) : Res Int :=
  int32 (a 0 + a 1 + a 2 + a 3)

end

/-- Two products and two accumulations, for the halves of 16 lanes. -/
def vmlal16 (acc : Fin 4 → Int) (a b : Fin 16 → Int8) : Res (Fin 4 → Int) := do
  let low ← vmullS8 (vgetLowS8 a) (vgetLowS8 b)
  let acc ← vpadalqS16 acc low
  let high ← vmullS8 (vgetHighS8 a) (vgetHighS8 b)
  vpadalqS16 acc high

def neonStep (qsl : List UInt8) (xlo xhi : List Int8) (accs : (Fin 4 → Int) × (Fin 4 → Int)) (k : Fin 2) :
    Res ((Fin 4 → Int) × (Fin 4 → Int)) := do
  let q ← vld1q qsl (k.val * 16)
  let xl ← vld1q xlo (k.val * 16)
  let xh ← vld1q xhi (k.val * 16)
  let accLo ← vmlal16 accs.1 (vreinterpretqS8U8 (vandqU8 q (vdupqNU8 0x0F))) xl
  let accHi ← vmlal16 accs.2 (vreinterpretqS8U8 (vshrqNU8 q 4)) xh
  pure (accLo, accHi)

def dot32PairNeon (qsl : List UInt8) (xlo xhi : List Int8) : Res (Int × Int) :=
  -- debug_assert!
  if qsl.length < 32 ∨ xlo.length < 32 ∨ xhi.length < 32 then .error (.panic .explicit)
  else do
    let accs ← (List.finRange 2).foldlM (neonStep qsl xlo xhi) (fun _ => 0, fun _ => 0)
    let sLo ← vaddvqS32 accs.1
    let sHi ← vaddvqS32 accs.2
    pure (sLo, sHi)

theorem lanes_ok {bits n : Nat} {v : Fin n → Int} (B : Nat) (hv : ∀ j, (v j).natAbs ≤ B) (hB : B < 2 ^ (bits - 1)) :
    lanes bits v = .ok v := by
  refine if_pos fun j => ?_
  have hj := hv j
  have hpow : ((2 ^ (bits - 1) : Nat) : Int) = 2 ^ (bits - 1) := by simp
  omega

omit [F32 F] in
private theorem sum_pairs (p : Fin 8 → Int) :
    ∑ j : Fin 4, (p ⟨2 * j.val, Offset.pair_low j⟩ + p ⟨2 * j.val + 1, Offset.pair_high j⟩) = ∑ i, p i := by
  have hgroups := sum_fin_groups 4 2 p
  rw [hgroups]
  refine Finset.sum_congr rfl fun j _ => ?_
  rw [Fin.sum_univ_two]
  refine congr (congrArg _ (congrArg p (Fin.ext ?_))) (congrArg p (Fin.ext ?_))
  · rw [finProdFinEquiv_apply_val]
    dsimp only [Fin.val_zero]
    omega
  · rw [finProdFinEquiv_apply_val]
    dsimp only [Fin.val_one]
    omega

/-- Nibbles against any activations: no `i16` lane holds more than `15 * 128`. -/
private theorem vmlal16_ok {acc : Fin 4 → Int} {a b : Fin 16 → Int8} (S : Nat) (hacc : ∀ j, (acc j).natAbs ≤ S)
    (ha : ∀ i, (a i).toInt.natAbs ≤ 15) (hfit : S + 7680 < 2 ^ 31) :
    ∃ acc', vmlal16 acc a b = .ok acc' ∧ (∀ j, (acc' j).natAbs ≤ S + 7680) ∧
      ∑ j, acc' j = ∑ j, acc j + ∑ i, (a i).toInt * (b i).toInt := by
  -- 15 times 128: no product of a nibble and a code leaves 16 bits.
  have hprod : ∀ i, ((a i).toInt * (b i).toInt).natAbs ≤ 1920 := by
    intro i
    have hlow := (b i).le_toInt
    have hhigh := (b i).toInt_lt
    rw [Int.natAbs_mul]
    exact Nat.mul_le_mul (ha i) (by omega : (b i).toInt.natAbs ≤ 128)
  have hmull : ∀ (c d : Fin 8 → Int8) (at' : Fin 8 → Fin 16), (∀ i, c i = a (at' i) ∧ d i = b (at' i)) →
      vmullS8 c d = .ok fun i => (c i).toInt * (d i).toInt := by
    intro c d at' hat
    refine lanes_ok 1920 (fun i => ?_) (by decide)
    rw [(hat i).1, (hat i).2]
    exact hprod (at' i)
  -- Each lane gains two products, at most 3840.
  have hadd : ∀ (acc : Fin 4 → Int) (p : Fin 8 → Int) (S : Nat), (∀ j, (acc j).natAbs ≤ S) →
      (∀ i, (p i).natAbs ≤ 1920) → S + 3840 < 2 ^ 31 →
      ∃ acc', vpadalqS16 acc p = .ok acc' ∧ (∀ j, (acc' j).natAbs ≤ S + 3840) ∧ ∑ j, acc' j = ∑ j, acc j + ∑ i, p i := by
    intro acc p S hacc hp hS
    have hbound : ∀ j : Fin 4,
        (acc j + (p ⟨2 * j.val, by omega⟩ + p ⟨2 * j.val + 1, by omega⟩)).natAbs ≤ S + 3840 := by
      intro j
      have h0 := hacc j
      have h1 := hp ⟨2 * j.val, by omega⟩
      have h2 := hp ⟨2 * j.val + 1, by omega⟩
      omega
    refine ⟨_, lanes_ok (S + 3840) hbound (by omega), hbound, ?_⟩
    rw [Finset.sum_add_distrib, sum_pairs]
  -- The low eight lanes, then the high eight.
  obtain ⟨acc₁, hrun₁, hbound₁, hsum₁⟩ := hadd acc (fun i => (vgetLowS8 a i).toInt * (vgetLowS8 b i).toInt) S hacc
    (fun i => hprod _) (by omega)
  obtain ⟨acc₂, hrun₂, hbound₂, hsum₂⟩ := hadd acc₁ (fun i => (vgetHighS8 a i).toInt * (vgetHighS8 b i).toInt) (S + 3840)
    hbound₁ (fun i => hprod _) (by omega)
  refine ⟨acc₂, ?_, hbound₂, ?_⟩
  · unfold vmlal16
    rw [hmull (vgetLowS8 a) (vgetLowS8 b) _ fun i => ⟨rfl, rfl⟩, ok_bind, hrun₁, ok_bind,
      hmull (vgetHighS8 a) (vgetHighS8 b) _ fun i => ⟨rfl, rfl⟩, ok_bind, hrun₂]
  · have hhalves := Fin.sum_univ_add (a := 8) (b := 8) fun i : Fin 16 => (a i).toInt * (b i).toInt
    rw [hsum₂, hsum₁, add_assoc]
    exact congrArg _ hhalves.symm

omit [F32 F] in
private theorem toInt_nibble {v : UInt8} (hv : v.toNat < 16) : v.toInt8.toInt = v.toNat :=
  BitVec.toInt_eq_toNat_of_lt (x := v.toBitVec) (by change 2 * v.toNat < 2 ^ 8; omega)

omit [F32 F] in
theorem toInt_lowNibble (b : UInt8) : (b &&& 0x0F).toInt8.toInt = lowNibble b :=
  toInt_nibble (by rw [toNat_low]; omega)

omit [F32 F] in
theorem toInt_highNibble (b : UInt8) : (b >>> 4).toInt8.toInt = highNibble b :=
  toInt_nibble (by have hb := b.toNat_lt; rw [toNat_high]; omega)

omit [F32 F] in
theorem lowNibble_bounds (b : UInt8) : 0 ≤ lowNibble b ∧ lowNibble b ≤ 15 := by
  have h := toNat_low b
  unfold lowNibble
  omega

omit [F32 F] in
theorem highNibble_bounds (b : UInt8) : 0 ≤ highNibble b ∧ highNibble b ≤ 15 := by
  have h := toNat_high b
  have hb := b.toNat_lt
  unfold highNibble
  omega

omit [F32 F] in
private theorem vld1q_map {α : Type} (f : Fin 32 → α) (k : Fin 2) :
    vld1q ((List.finRange 32).map f) (k.val * 16) = .ok fun i => f ⟨i.val + 16 * k.val, by omega⟩ := by
  unfold vld1q
  rw [dif_pos (by simp; omega)]
  refine congrArg Except.ok (funext fun i => ?_)
  simp only [List.get_eq_getElem, List.getElem_map, List.getElem_finRange]
  exact congrArg f (Fin.ext (by dsimp only [Fin.val_cast]; omega))

private theorem neonStep_ok (q : Fin 32 → UInt8) (xl xh : Fin 32 → Int8) {accs : (Fin 4 → Int) × (Fin 4 → Int)} (k : Fin 2)
    (S : Nat) (hlo : ∀ j, (accs.1 j).natAbs ≤ S) (hhi : ∀ j, (accs.2 j).natAbs ≤ S) (hfit : S + 7680 < 2 ^ 31) :
    ∃ accs', neonStep ((List.finRange 32).map q) ((List.finRange 32).map xl) ((List.finRange 32).map xh) accs k = .ok accs' ∧
      (∀ j, (accs'.1 j).natAbs ≤ S + 7680) ∧ (∀ j, (accs'.2 j).natAbs ≤ S + 7680) ∧
      ∑ j, accs'.1 j = ∑ j, accs.1 j + ∑ i : Fin 16,
        lowNibble (q ⟨i.val + 16 * k.val, by omega⟩) * (xl ⟨i.val + 16 * k.val, by omega⟩).toInt ∧
      ∑ j, accs'.2 j = ∑ j, accs.2 j + ∑ i : Fin 16,
        highNibble (q ⟨i.val + 16 * k.val, by omega⟩) * (xh ⟨i.val + 16 * k.val, by omega⟩).toInt := by
  obtain ⟨lo, hrunlo, hlo', hsumlo⟩ := vmlal16_ok
    (a := vreinterpretqS8U8 (vandqU8 (fun i => q ⟨i.val + 16 * k.val, by omega⟩) (vdupqNU8 0x0F)))
    (b := fun i => xl ⟨i.val + 16 * k.val, by omega⟩) S hlo
    -- The masked nibbles are at most 15, also when reinterpreted as signed.
    (fun i => by
      have hnibble := lowNibble_bounds (q ⟨i.val + 16 * k.val, by omega⟩)
      change ((q ⟨i.val + 16 * k.val, _⟩ &&& 0x0F).toInt8.toInt).natAbs ≤ 15
      rw [toInt_lowNibble]
      omega) hfit
  obtain ⟨hi, hrunhi, hhi', hsumhi⟩ := vmlal16_ok
    (a := vreinterpretqS8U8 (vshrqNU8 (fun i => q ⟨i.val + 16 * k.val, by omega⟩) 4))
    (b := fun i => xh ⟨i.val + 16 * k.val, by omega⟩) S hhi
    (fun i => by
      have hnibble := highNibble_bounds (q ⟨i.val + 16 * k.val, by omega⟩)
      change ((q ⟨i.val + 16 * k.val, _⟩ >>> 4).toInt8.toInt).natAbs ≤ 15
      rw [toInt_highNibble]
      omega) hfit
  refine ⟨(lo, hi), ?_, hlo', hhi', ?_, ?_⟩
  · unfold neonStep
    rw [vld1q_map, ok_bind, vld1q_map, ok_bind, vld1q_map, ok_bind, hrunlo, ok_bind, hrunhi, ok_bind]
    rfl
  · rw [hsumlo]
    exact congrArg _ (Finset.sum_congr rfl fun i _ => congrArg (· * _) (toInt_lowNibble _))
  · rw [hsumhi]
    exact congrArg _ (Finset.sum_congr rfl fun i _ => congrArg (· * _) (toInt_highNibble _))

omit [F32 F] in
private theorem sum_halves (f : Fin 32 → Int) :
    ∑ l, f l = ∑ i : Fin 16, f ⟨i.val + 16 * 0, by omega⟩ + ∑ i : Fin 16, f ⟨i.val + 16 * 1, by omega⟩ := by
  have hgroups := sum_fin_groups 2 16 f
  rw [hgroups, Fin.sum_univ_two]
  rfl

/-- The vector path on two slices of 32: no lane overflows, and the sums are exact. -/
theorem dot32PairNeon_ok (q : Fin 32 → UInt8) (xl xh : Fin 32 → Int8) :
    dot32PairNeon ((List.finRange 32).map q) ((List.finRange 32).map xl) ((List.finRange 32).map xh) =
      .ok (∑ l, lowNibble (q l) * (xl l).toInt, ∑ l, highNibble (q l) * (xh l).toInt) := by
  -- Two turns of 16 lanes each; the bound of the first is the start of the second.
  obtain ⟨a, hruna, hloa, hhia, hsumloa, hsumhia⟩ := @neonStep_ok q xl xh (fun _ => 0, fun _ => 0) 0 0
    (by simp) (by simp) (by decide)
  obtain ⟨b, hrunb, hlob, hhib, hsumlob, hsumhib⟩ := @neonStep_ok q xl xh a 1 7680
    (by simpa using hloa) (by simpa using hhia) (by decide)
  -- The horizontal sum of four lanes fits a word.
  have haddv : ∀ v : Fin 4 → Int, (∀ j, (v j).natAbs ≤ 7680 + 7680) → vaddvqS32 v = .ok (∑ j, v j) := by
    intro v hv
    have h0 := hv 0
    have h1 := hv 1
    have h2 := hv 2
    have h3 := hv 3
    unfold vaddvqS32
    rw [int32_of_natAbs (by omega), Fin.sum_univ_four]
  have hturns : List.finRange 2 = [0, 1] := rfl
  unfold dot32PairNeon
  rw [if_neg (by simp), hturns, List.foldlM_cons, hruna, ok_bind, List.foldlM_cons, hrunb, ok_bind, List.foldlM_nil]
  change (vaddvqS32 b.1 >>= fun sLo => vaddvqS32 b.2 >>= fun sHi => pure (sLo, sHi)) = _
  rw [haddv _ hlob, ok_bind, haddv _ hhib, ok_bind, hsumlob, hsumhib, hsumloa, hsumhia, sum_halves, sum_halves]
  simp only [Finset.sum_const_zero, Int.zero_add]
  rfl

/-- The scalar path on the same slices. -/
theorem dot32PairScalar_ok (q : Fin 32 → UInt8) (xl xh : Fin 32 → Int8) :
    dot32PairScalar ((List.finRange 32).map q) ((List.finRange 32).map xl) ((List.finRange 32).map xh) =
      .ok (∑ l, lowNibble (q l) * (xl l).toInt, ∑ l, highNibble (q l) * (xh l).toInt) := by
  -- A signed byte may be -128.
  have hcode : ∀ x : Int8, x.toInt.natAbs ≤ 128 := by
    intro x
    have hlow := x.le_toInt
    have hhigh := x.toInt_lt
    omega
  have hslices : dot32PairScalar ((List.finRange 32).map q) ((List.finRange 32).map xl) ((List.finRange 32).map xh) =
      (List.finRange 32).foldlM (fun s l => dot32Step s ((q l, xl l), xh l)) (0, 0) := by
    unfold dot32PairScalar
    rw [List.zip_map', List.zip_map', List.foldlM_map]
  -- Accumulators bounded by the number of steps times 1920, at most 32 of them.
  obtain ⟨s, hrun, -⟩ := @foldlM_finRange_ok Error (Int × Int) 32 (fun k s => s.1.natAbs ≤ k * 1920 ∧ s.2.natAbs ≤ k * 1920)
    (fun s l => dot32Step s ((q l, xl l), xh l)) (0, 0) ⟨Nat.zero_le _, Nat.zero_le _⟩ fun l s hs => by
      have hlow := lowNibble_bounds (q l)
      have hhigh := highNibble_bounds (q l)
      obtain ⟨lo, hlo, hlo'⟩ := mac_ok (l * 1920) 15 128 hs.1 (by omega : (lowNibble (q l)).natAbs ≤ 15) (hcode (xl l))
        (by omega)
      obtain ⟨hi, hhi, hhi'⟩ := mac_ok (l * 1920) 15 128 hs.2 (by omega : (highNibble (q l)).natAbs ≤ 15) (hcode (xh l))
        (by omega)
      refine ⟨(lo, hi), ?_, by omega, by omega⟩
      unfold dot32Step
      rw [hlo, ok_bind, hhi, ok_bind]
      rfl
  -- The value of a fold that adds is the sum of what it adds.
  have hsum := foldlM_finRange_adds id (fun l => (lowNibble (q l) * (xl l).toInt, highNibble (q l) * (xh l).toInt))
    (fun s l s' hs => by
      obtain ⟨lo, hlo, hs⟩ := bind_eq_ok.mp hs
      obtain ⟨hi, hhi, hs⟩ := bind_eq_ok.mp hs
      cases hs
      rw [mac_eq hlo, mac_eq hhi]
      rfl) hrun
  rw [hslices, hrun]
  refine congrArg Except.ok (hsum.trans (Prod.ext ?_ ?_))
  · simp [Prod.fst_sum]
  · simp [Prod.snd_sum]

/-! ### Q4_K -/

/-- `cfg(target_arch)`. -/
inductive Arch where
  | portable
  | aarch64

def dot32Pair : Arch → List UInt8 → List Int8 → List Int8 → Res (Int × Int)
  | .portable => dot32PairScalar
  | .aarch64 => dot32PairNeon

/-- The functions of a block dot on an architecture. -/
def fullPairOn (arch : Arch) (w : Vector UInt8 144) (xq : Q8Block F) (half : Fin 4) : Res (Int × Int) :=
  dot32Pair arch
    ((List.finRange 32).map fun l : Fin 32 =>
      getElem w (16 + 32 * half.val + l.val) (Offset.q4k_qs half l))
    ((List.finRange 32).map fun l : Fin 32 =>
      getElem xq.qs (64 * half.val + l.val) (Offset.codes_low half l))
    ((List.finRange 32).map fun l : Fin 32 =>
      getElem xq.qs (64 * half.val + 32 + l.val) (Offset.codes_high half l))

def pairSumsOn (arch : Arch) (w : Vector UInt8 144) (xq : Q8Block F) (n : Nat) (half : Fin 4) : Res (Int × Int) :=
  if 64 * half.val + 64 ≤ n then fullPairOn arch w xq half else partialPair w xq n half

def q4kStepOn (arch : Arch) (w : Vector UInt8 144) (xq : Q8Block F) (n : Nat) (accs : Int × Int) (half : Fin 4) :
    Res (Int × Int) := do
  let lo := getScaleMinK4 ⟨half * 2, Offset.sums_low half⟩ (q4kScales w)
  let hi := getScaleMinK4 ⟨half * 2 + 1, Offset.sums_high half⟩ (q4kScales w)
  let s ← pairSumsOn arch w xq n half
  let acc ← mac2 accs.1 lo.1.toNat s.1 hi.1.toNat s.2
  let accM ← mac2 accs.2 lo.2.toNat (getElem xq.bsums (half.val * 2) (Offset.sums_low half))
    hi.2.toNat (getElem xq.bsums (half.val * 2 + 1) (Offset.sums_high half))
  pure (acc, accM)

/-- The two integer accumulators of a block dot. -/
def q4kAccumulators (arch : Arch) (w : Vector UInt8 144) (xq : Q8Block F) (n : Nat) : Res (Int × Int) :=
  (List.finRange 4).foldlM (q4kStepOn arch w xq n) (0, 0)

def dotQ4kQ8BlockOn (arch : Arch) (w : Vector UInt8 144) (xq : Q8Block F) (n : Nat) : Res F := do
  let d : F := f16Le (getElem w 0 Offset.q4k_d0) (getElem w 1 Offset.q4k_d1)
  let dmin : F := f16Le (getElem w 2 Offset.q4k_dmin0) (getElem w 3 Offset.q4k_dmin1)
  let accs ← q4kAccumulators arch w xq n
  pure (F32.sub (F32.mul (F32.mul d xq.d) (F32.ofInt accs.1))
    (F32.mul (F32.mul dmin xq.d) (F32.ofInt accs.2)))

omit [F32 F] in
theorem fullPairOn_ok (arch : Arch) (w : Vector UInt8 144) (xq : Q8Block F) (half : Fin 4) :
    fullPairOn arch w xq half = .ok
      (∑ l : Fin 32, lowNibble (getElem w (16 + 32 * half.val + l.val) (Offset.q4k_qs half l)) *
          (getElem xq.qs (64 * half.val + l.val) (Offset.codes_low half l)).toInt,
        ∑ l : Fin 32, highNibble (getElem w (16 + 32 * half.val + l.val) (Offset.q4k_qs half l)) *
          (getElem xq.qs (64 * half.val + 32 + l.val) (Offset.codes_high half l)).toInt) := by
  unfold fullPairOn
  -- Both architectures compute the same two sums; only the order of the additions differs.
  cases arch with
  | portable =>
    exact dot32PairScalar_ok (fun l => w[16 + 32 * half.val + l.val]) (fun l => xq.qs[64 * half.val + l.val])
      fun l => xq.qs[64 * half.val + 32 + l.val]
  | aarch64 =>
    exact dot32PairNeon_ok (fun l => w[16 + 32 * half.val + l.val]) (fun l => xq.qs[64 * half.val + l.val])
      fun l => xq.qs[64 * half.val + 32 + l.val]

/-- Every architecture computes what the portable one does. -/
theorem dotQ4kQ8BlockOn_eq (arch : Arch) (w : Vector UInt8 144) (xq : Q8Block F) (n : Nat) :
    dotQ4kQ8BlockOn arch w xq n = dotQ4kQ8Block w xq n := by
  have hfull : fullPairOn arch w xq = fullPair w xq :=
    funext fun half => (fullPairOn_ok arch w xq half).trans (fullPairOn_ok .portable w xq half).symm
  have hpair : pairSumsOn arch w xq n = pairSums w xq n := by
    unfold pairSumsOn pairSums
    rw [hfull]
  have hstep : q4kStepOn arch w xq n = q4kStep w xq n := by
    unfold q4kStepOn q4kStep
    rw [hpair]
  unfold dotQ4kQ8BlockOn dotQ4kQ8Block q4kAccumulators
  rw [hstep]

omit [F32 F] in
theorem pairSumsOn_eq {arch : Arch} {w : Vector UInt8 144} {xq : Q8Block F} {n : Nat} {half : Fin 4} {s : Int × Int}
    (h : pairSumsOn arch w xq n half = .ok s) :
    s.1 = ∑ l : Fin 32, (if 64 * half.val + l.val < n then
        lowNibble (getElem w (16 + 32 * half.val + l.val) (Offset.q4k_qs half l)) *
          (getElem xq.qs (64 * half.val + l.val) (Offset.codes_low half l)).toInt else 0) ∧
      s.2 = ∑ l : Fin 32, (if 64 * half.val + 32 + l.val < n then
        highNibble (getElem w (16 + 32 * half.val + l.val) (Offset.q4k_qs half l)) *
          (getElem xq.qs (64 * half.val + 32 + l.val) (Offset.codes_high half l)).toInt else 0) := by
  unfold pairSumsOn at h
  split at h
  next hfull =>
    -- every index of the pair lies below `n`
    rw [fullPairOn_ok] at h
    cases h
    constructor
    · dsimp only
      refine Finset.sum_congr rfl fun l _ => ?_
      rw [if_pos (by omega)]
    · dsimp only
      refine Finset.sum_congr rfl fun l _ => ?_
      rw [if_pos (by omega)]
  next =>
    constructor
    · have hlow := foldlM_finRange_adds Prod.fst _ (fun s l s' hs => by
        obtain ⟨lo, hlo, hs⟩ := bind_eq_ok.mp hs
        obtain ⟨hi, hhi, hs⟩ := bind_eq_ok.mp hs
        cases hs
        exact macBelow_eq hlo) h
      rw [hlow, Int.zero_add]
    · have hhigh := foldlM_finRange_adds Prod.snd _ (fun s l s' hs => by
        obtain ⟨lo, hlo, hs⟩ := bind_eq_ok.mp hs
        obtain ⟨hi, hhi, hs⟩ := bind_eq_ok.mp hs
        cases hs
        exact macBelow_eq hhi) h
      rw [hhigh, Int.zero_add]

/-- The codes of a sub-block pair are those that the decoder uses. -/
theorem q4kCodes_pair (w : Vector UInt8 144) (half : Fin 4) (l : Fin 32) :
    (q4kCodes w).code ⟨64 * half + l, Offset.codes_low half l⟩ = lowNibble (getElem w (16 + 32 * half.val + l.val) (Offset.q4k_qs half l)) ∧
      (q4kCodes w).code ⟨64 * half + 32 + l, Offset.codes_high half l⟩ =
        highNibble (getElem w (16 + 32 * half.val + l.val) (Offset.q4k_qs half l)) := by
  have hlow : (64 * half.val + l.val) % 64 < 32 := by omega
  have hhigh : ¬(64 * half.val + 32 + l.val) % 64 < 32 := by omega
  have hbyte : 16 + 32 * ((64 * half.val + l.val) / 64) + (64 * half.val + l.val) % 32 = 16 + 32 * half.val + l.val := by
    omega
  have hbyte' : 16 + 32 * ((64 * half.val + 32 + l.val) / 64) + (64 * half.val + 32 + l.val) % 32 =
      16 + 32 * half.val + l.val := by omega
  unfold Q4kCodes.code q4kCodes q4kNibble
  simp only [hlow, hhigh, if_true, if_false, hbyte, hbyte']
  exact ⟨rfl, rfl⟩

theorem q4kCodes_scales (w : Vector UInt8 144) (j : Fin 8) (i : Fin 256) (hi : i.val / 32 = j.val) :
    (q4kCodes w).scale i = ((getScaleMinK4 j (q4kScales w)).1.toNat : Int) ∧
      (q4kCodes w).min i = ((getScaleMinK4 j (q4kScales w)).2.toNat : Int) := by
  have hj : (⟨i.val / 32, by omega⟩ : Fin 8) = j := Fin.ext hi
  unfold Q4kCodes.scale Q4kCodes.min q4kCodes scalePairs
  rw [hj]
  exact ⟨rfl, rfl⟩

omit [F32 F] in
/-- The elements of a super-block, one sub-block pair after the other. -/
theorem sum_q4k_pairs (f : Fin 256 → Int) :
    ∑ i, f i = ∑ half : Fin 4, (∑ l : Fin 32, f ⟨64 * half.val + l.val, Offset.codes_low half l⟩ +
      ∑ l : Fin 32, f ⟨64 * half.val + 32 + l.val, Offset.codes_high half l⟩) := by
  have hturns := sum_fin_groups 4 64 f
  rw [hturns]
  refine Finset.sum_congr rfl fun half _ => ?_
  -- A half of 64 codes: 32 low nibbles, then 32 high ones.
  have hhalves := Fin.sum_univ_add (a := 32) (b := 32) fun b : Fin 64 => f (finProdFinEquiv (half, b))
  refine hhalves.trans (congr (congrArg _ ?_) ?_)
  · refine Finset.sum_congr rfl fun l _ => congrArg f (Fin.ext ?_)
    rw [finProdFinEquiv_apply_val]
    dsimp only [Fin.val_castAdd]
    omega
  · refine Finset.sum_congr rfl fun l _ => congrArg f (Fin.ext ?_)
    rw [finProdFinEquiv_apply_val]
    dsimp only [Fin.val_natAdd]
    omega

omit [F32 F] in
/-- One sub-block pair adds the products of its 64 elements. -/
private theorem q4kStepOn_adds {arch : Arch} {w : Vector UInt8 144} {xq : Q8Block F} {n : Nat} (hxq : xq.Sums n)
    {accs accs' : Int × Int} {half : Fin 4} (h : q4kStepOn arch w xq n accs half = .ok accs') :
    accs'.1 = accs.1 + (∑ l : Fin 32, (if 64 * half.val + l.val < n then (q4kCodes w).scale
          ⟨64 * half + l, Offset.codes_low half l⟩ * (q4kCodes w).code ⟨64 * half + l, Offset.codes_low half l⟩ *
        (getElem xq.qs (64 * half.val + l.val) (Offset.codes_low half l)).toInt else 0) +
      ∑ l : Fin 32, (if 64 * half.val + 32 + l.val < n then (q4kCodes w).scale
          ⟨64 * half + 32 + l, Offset.codes_high half l⟩ * (q4kCodes w).code ⟨64 * half + 32 + l, Offset.codes_high half l⟩ *
        (getElem xq.qs (64 * half.val + 32 + l.val) (Offset.codes_high half l)).toInt else 0)) ∧
    accs'.2 = accs.2 + (∑ l : Fin 32, (if 64 * half.val + l.val < n then (q4kCodes w).min ⟨64 * half + l, Offset.codes_low half l⟩ *
        (getElem xq.qs (64 * half.val + l.val) (Offset.codes_low half l)).toInt else 0) +
      ∑ l : Fin 32, (if 64 * half.val + 32 + l.val < n then (q4kCodes w).min ⟨64 * half + 32 + l, Offset.codes_high half l⟩ *
        (getElem xq.qs (64 * half.val + 32 + l.val) (Offset.codes_high half l)).toInt else 0)) := by
  obtain ⟨s, hs, h⟩ := bind_eq_ok.mp h
  obtain ⟨acc, hacc, h⟩ := bind_eq_ok.mp h
  obtain ⟨accM, haccM, h⟩ := bind_eq_ok.mp h
  cases h
  obtain ⟨hlow, hhigh⟩ := pairSumsOn_eq hs
  have hscale : ∀ l : Fin 32, _ := fun l => q4kCodes_scales w ⟨half * 2, by omega⟩ ⟨64 * half + l, by omega⟩
    (by dsimp only; omega)
  have hscale' : ∀ l : Fin 32, _ := fun l => q4kCodes_scales w ⟨half * 2 + 1, by omega⟩ ⟨64 * half + 32 + l, by omega⟩
    (by dsimp only; omega)
  -- codes past the activations are zero, so a group sum is the sum of the codes below `n`
  have hgroup : ∀ (j : Nat) (hj : j < 8), xq.bsums[j] =
      ∑ l : Fin 32, if 32 * j + l.val < n then xq.qs[32 * j + l.val].toInt else 0 := by
    intro j hj
    rw [hxq.sums j hj]
    refine Finset.sum_congr rfl fun l _ => ?_
    split
    next => rfl
    next hpast => rw [hxq.rest _ (by omega) (by omega)]; rfl
  have hplace : 32 * (half.val * 2) = 64 * half.val := by omega
  have hplace' : 32 * (half.val * 2 + 1) = 64 * half.val + 32 := by omega
  constructor
  · dsimp only
    rw [mac2_eq hacc, hlow, hhigh, Finset.mul_sum, Finset.mul_sum]
    refine congrArg (accs.1 + ·) (congrArg₂ (· + ·) ?_ ?_)
    · refine Finset.sum_congr rfl fun l _ => ?_
      rw [mul_ite, mul_zero, (hscale l).1, (q4kCodes_pair w half l).1, mul_assoc]
    · refine Finset.sum_congr rfl fun l _ => ?_
      rw [mul_ite, mul_zero, (hscale' l).1, (q4kCodes_pair w half l).2, mul_assoc]
  · dsimp only
    rw [mac2_eq haccM, hgroup, hgroup, Finset.mul_sum, Finset.mul_sum]
    refine congrArg (accs.2 + ·) (congrArg₂ (· + ·) ?_ ?_)
    · refine Finset.sum_congr rfl fun l _ => ?_
      simp only [mul_ite, mul_zero, (hscale l).2, hplace]
    · refine Finset.sum_congr rfl fun l _ => ?_
      simp only [mul_ite, mul_zero, (hscale' l).2, hplace']

/-- The block dot of Q4_K against quantized activations: no operation overflows, and both accumulators are
the sums over the elements below the number of activations. -/
theorem dotQ4kQ8Block_exact (arch : Arch) (w : Vector UInt8 144) (x : List F) (hx : x.length ≤ 256) :
    ∃ xq, quantizeBlockQ8 x = .ok xq ∧
      (∀ i : Fin 256, (q4kWeights w : List F)[i.val]? = some ((q4kCodes w).element i)) ∧
      q4kAccumulators arch w xq x.length = .ok
        (∑ i : Fin 256 with i.val < x.length, (q4kCodes w).scale i * (q4kCodes w).code i * xq.qs[i.val].toInt,
          ∑ i : Fin 256 with i.val < x.length, (q4kCodes w).min i * xq.qs[i.val].toInt) ∧
      ∃ v, dotQ4kQ8BlockOn arch w xq x.length = .ok v := by
  obtain ⟨xq, hquantize, hbounded⟩ := quantizeBlockQ8_ok hx
  have hsums := quantizeBlockQ8_sums hquantize
  obtain ⟨v, hv⟩ := dotQ4kQ8Block_ok w hbounded x.length
  -- Every architecture agrees, so the run of the scalar kernel is the run of this one.
  rw [← dotQ4kQ8BlockOn_eq arch] at hv
  obtain ⟨accs, haccs, -⟩ := bind_eq_ok.mp hv
  refine ⟨xq, hquantize, q4kWeights_element w, haccs.trans (congrArg Except.ok (Prod.ext ?_ ?_)), v, hv⟩
  -- Each half adds its share to both accumulators; the shares add up to the sum over all codes.
  · have hrun := foldlM_finRange_adds Prod.fst _
      (fun s half s' (hs : q4kStepOn arch w xq x.length s half = .ok s') => (q4kStepOn_adds hsums hs).1) haccs
    dsimp only
    rw [hrun, Int.zero_add, Finset.sum_filter, sum_q4k_pairs]
  · have hrun := foldlM_finRange_adds Prod.snd _
      (fun s half s' (hs : q4kStepOn arch w xq x.length s half = .ok s') => (q4kStepOn_adds hsums hs).2) haccs
    dsimp only
    rw [hrun, Int.zero_add, Finset.sum_filter, sum_q4k_pairs]

/-- A block of bytes that differ. -/
def variedBlock (size : Nat) : Vector UInt8 size :=
  Vector.ofFn fun i => UInt8.ofNat (7 * i.val + 1)

/-- A length that cuts the second group of 32. -/
theorem dotQ4kQ8Block_exact_cut :
    ∃ xq, quantizeBlockQ8 (risingRow 40) = .ok xq ∧
      (∀ i : Fin 256, (q4kWeights (variedBlock 144) : List Binary32)[i.val]? =
        some ((q4kCodes (variedBlock 144)).element i)) ∧
      q4kAccumulators .aarch64 (variedBlock 144) xq (risingRow 40).length = .ok
        (∑ i : Fin 256 with i.val < (risingRow 40).length,
            (q4kCodes (variedBlock 144)).scale i * (q4kCodes (variedBlock 144)).code i * xq.qs[i.val].toInt,
          ∑ i : Fin 256 with i.val < (risingRow 40).length,
            (q4kCodes (variedBlock 144)).min i * xq.qs[i.val].toInt) ∧
      ∃ v, dotQ4kQ8BlockOn .aarch64 (variedBlock 144) xq (risingRow 40).length = .ok v :=
  dotQ4kQ8Block_exact .aarch64 (variedBlock 144) (risingRow 40) (by rw [length_risingRow]; decide)

/-- What a whole sub-block pair adds to the two accumulators. -/
def q4kPairTerms (w : Vector UInt8 144) (xq : Q8Block F) (half : Fin 4) : Int × Int :=
  (((getScaleMinK4 ⟨half * 2, Offset.sums_low half⟩ (q4kScales w)).1.toNat : Int) *
        (∑ l : Fin 32, lowNibble (getElem w (16 + 32 * half.val + l.val) (Offset.q4k_qs half l)) *
          (getElem xq.qs (64 * half.val + l.val) (Offset.codes_low half l)).toInt) +
      ((getScaleMinK4 ⟨half * 2 + 1, Offset.sums_high half⟩ (q4kScales w)).1.toNat : Int) *
        ∑ l : Fin 32, highNibble (getElem w (16 + 32 * half.val + l.val) (Offset.q4k_qs half l)) *
          (getElem xq.qs (64 * half.val + 32 + l.val) (Offset.codes_high half l)).toInt,
    ((getScaleMinK4 ⟨half * 2, Offset.sums_low half⟩ (q4kScales w)).2.toNat : Int) *
        getElem xq.bsums (half.val * 2) (Offset.sums_low half) +
      ((getScaleMinK4 ⟨half * 2 + 1, Offset.sums_high half⟩ (q4kScales w)).2.toNat : Int) *
        getElem xq.bsums (half.val * 2 + 1) (Offset.sums_high half))

omit [F32 F] in
private theorem q4kStepOn_full {arch : Arch} {w : Vector UInt8 144} {xq : Q8Block F} {accs accs' : Int × Int} {half : Fin 4}
    (h : q4kStepOn arch w xq 256 accs half = .ok accs') : accs' = accs + q4kPairTerms w xq half := by
  obtain ⟨s, hsums, h⟩ := bind_eq_ok.mp h
  obtain ⟨acc, hacc, h⟩ := bind_eq_ok.mp h
  obtain ⟨accM, haccM, h⟩ := bind_eq_ok.mp h
  cases h
  unfold pairSumsOn at hsums
  rw [if_pos (by omega), fullPairOn_ok] at hsums
  cases hsums
  exact Prod.ext (mac2_eq hacc) (mac2_eq haccM)

/-- A whole super-block, against any activations whose dot product does not overflow. -/
theorem dotQ4kQ8Block_full {w : Vector UInt8 144} {xq : Q8Block F} {v : F} (h : dotQ4kQ8Block w xq 256 = .ok v) :
    v = F32.sub
      (F32.mul (F32.mul (f16Le (getElem w 0 Offset.q4k_d0) (getElem w 1 Offset.q4k_d1)) xq.d) (F32.ofInt (∑ half, q4kPairTerms w xq half).1))
      (F32.mul (F32.mul (f16Le (getElem w 2 Offset.q4k_dmin0) (getElem w 3 Offset.q4k_dmin1)) xq.d) (F32.ofInt (∑ half, q4kPairTerms w xq half).2)) := by
  rw [← dotQ4kQ8BlockOn_eq .portable] at h
  obtain ⟨accs, haccs, h⟩ := bind_eq_ok.mp h
  cases h
  have hrun : accs = (0, 0) + ∑ half, q4kPairTerms w xq half :=
    foldlM_finRange_adds id (q4kPairTerms w xq) (fun s half s' hs => q4kStepOn_full hs) haccs
  rw [hrun]
  simp only [Prod.fst_add, Prod.snd_add, Int.zero_add]

/-! ### Q6_K -/

/-- A weighted sum of the cells of a vector. -/
def weighted {n : Nat} (c : Fin n → Int) (v : Vector Int n) : Int :=
  ∑ j : Fin n, c j * v[j.val]

omit [F32 F] in
theorem weighted_set {n : Nat} (c : Fin n → Int) (v : Vector Int n) (j : Fin n) (d : Int) :
    weighted c (v.set j (v[j.val] + d)) = weighted c v + c j * d := by
  have hterm : ∀ k : Fin n, c k * (v.set j (v[j.val] + d))[k.val] = c k * v[k.val] + if k = j then c j * d else 0 := by
    intro k
    by_cases hk : k = j
    · subst hk
      rw [Vector.getElem_set_self, if_pos rfl, Int.mul_add]
    · have hne : j.val ≠ k.val := fun h => hk (Fin.ext h.symm)
      rw [Vector.getElem_set_ne _ _ hne, if_neg hk, Int.add_zero]
  unfold weighted
  rw [Finset.sum_congr rfl fun k _ => hterm k, Finset.sum_add_distrib, Finset.sum_ite_eq', if_pos (Finset.mem_univ j)]

omit [F32 F] in
theorem weighted_zero {n : Nat} (c : Fin n → Int) : weighted c (Vector.replicate n 0) = 0 := by
  unfold weighted
  simp

/-- The scale of quarter `k` of a run. -/
def runScale (w : Vector UInt8 210) (half is : Fin 2) (k : Fin 4) : Int :=
  q6kScale w ⟨8 * half.val + is.val + 2 * k.val, Offset.run_scale half is k⟩

/-- The product of element `i` of quarter `k` of a run. -/
def runProduct (w : Vector UInt8 210) (xq : Q8Block F) (half is : Fin 2) (i : Fin 16) (k : Fin 4) : Int :=
  q6kCode w half k ⟨16 * is + i, Offset.run_element is i⟩ *
    (getElem xq.qs (128 * half.val + (16 * is.val + i.val) + 32 * k.val) (Offset.run_cell half is i k)).toInt

omit [F32 F] in
private theorem fullRun_adds {w : Vector UInt8 210} {xq : Q8Block F} {half is : Fin 2} {sums sums' : Vector Int 16}
    (h : fullRun w xq half is sums = .ok sums') :
    weighted (q6kScale w) sums' = weighted (q6kScale w) sums +
      ∑ i : Fin 16, ∑ k : Fin 4, runScale w half is k * runProduct w xq half is i k := by
  obtain ⟨a, ha, h⟩ := bind_eq_ok.mp h
  -- The inner accumulators: sixteen turns, each adding one product to every cell.
  have hturns : weighted (runScale w half is) a = _ := foldlM_finRange_adds (weighted (runScale w half is)) _
    (fun a i a' hi => foldlM_finRange_adds (weighted (runScale w half is)) _ (fun a k a' hk => by
      obtain ⟨s, hs, hk⟩ := bind_eq_ok.mp hk
      cases hk
      rw [mac_eq hs]
      exact weighted_set _ a k (runProduct w xq half is i k)) hi) ha
  -- Each cell is then added to the sum of its own scale.
  have hcells : weighted (q6kScale w) sums' = _ := foldlM_finRange_adds (weighted (q6kScale w)) _ (fun v k v' hk => by
    obtain ⟨s, hs, hk⟩ := bind_eq_ok.mp hk
    cases hk
    rw [int32_eq hs]
    exact weighted_set _ v ⟨8 * half.val + is.val + 2 * k.val, by omega⟩ a[k.val]) h
  rw [hcells]
  refine congrArg _ (Eq.trans ?_ (hturns.trans ?_))
  · rfl
  · rw [weighted_zero, Int.zero_add]

omit [F32 F] in
private theorem partialRun_adds {w : Vector UInt8 210} {xq : Q8Block F} {n : Nat} {half is : Fin 2}
    {sums sums' : Vector Int 16} (h : partialRun w xq n half is sums = .ok sums') :
    weighted (q6kScale w) sums' = weighted (q6kScale w) sums + ∑ i : Fin 16, ∑ k : Fin 4, runScale w half is k *
      if 128 * half.val + (16 * is.val + i.val) + 32 * k.val < n then runProduct w xq half is i k else 0 :=
  foldlM_finRange_adds (weighted (q6kScale w)) _ (fun v i v' hi =>
    foldlM_finRange_adds (weighted (q6kScale w)) _ (fun v k v' hk => by
      obtain ⟨s, hs, hk⟩ := bind_eq_ok.mp hk
      cases hk
      rw [macBelow_eq hs]
      exact weighted_set _ v ⟨8 * half.val + is.val + 2 * k.val, by omega⟩ _) hi) h

/-- Element `i` of quarter `k` of a run is an element of the decoder. -/
theorem q6kCodes_run (w : Vector UInt8 210) (half is : Fin 2) (i : Fin 16) (k : Fin 4) :
    (q6kCodes w).scale ⟨128 * half + (16 * is + i) + 32 * k, Offset.run_cell half is i k⟩ = runScale w half is k ∧
      (q6kCodes w).code ⟨128 * half + (16 * is + i) + 32 * k, Offset.run_cell half is i k⟩ - 32 =
        q6kCode w half k ⟨16 * is + i, Offset.run_element is i⟩ := by
  -- Where the element at turn `i`, quarter `k` of a run is found in the block.
  have hscale : (128 * half.val + (16 * is.val + i.val) + 32 * k.val) / 16 = 8 * half.val + is.val + 2 * k.val := by
    omega
  have hhalf : (⟨(128 * half.val + (16 * is.val + i.val) + 32 * k.val) / 128, by omega⟩ : Fin 2) = half :=
    Fin.ext (by dsimp only; omega)
  have hquarter : (⟨(128 * half.val + (16 * is.val + i.val) + 32 * k.val) / 32 % 4, by omega⟩ : Fin 4) = k :=
    Fin.ext (by dsimp only; omega)
  have hplace : (⟨(128 * half.val + (16 * is.val + i.val) + 32 * k.val) % 32, by omega⟩ : Fin 32) =
      ⟨16 * is + i, by omega⟩ := Fin.ext (by dsimp only; omega)
  have hbounds := q6kCode_bounds w half k ⟨16 * is + i, by omega⟩
  constructor
  · unfold Q6kCodes.scale q6kCodes runScale q6kScale
    simp only [hscale]
  · unfold Q6kCodes.code q6kCodes q6kRaw
    dsimp only
    rw [hhalf, hquarter, hplace]
    omega

omit [F32 F] in
/-- The elements of a super-block in the order of the runs. -/
theorem sum_q6k_runs (f : Fin 256 → Int) :
    ∑ i, f i = ∑ half : Fin 2, ∑ is : Fin 2, ∑ i : Fin 16, ∑ k : Fin 4,
      f ⟨128 * half.val + (16 * is.val + i.val) + 32 * k.val, Offset.run_cell half is i k⟩ := by
  have hhalves := sum_fin_groups 2 128 f
  rw [hhalves]
  refine Finset.sum_congr rfl fun half _ => ?_
  have hquarters := sum_fin_groups 4 32 fun b : Fin 128 => f (finProdFinEquiv (half, b))
  have hruns : ∀ k : Fin 4, _ := fun k : Fin 4 =>
    sum_fin_groups 2 16 fun b : Fin 32 => f (finProdFinEquiv (half, (finProdFinEquiv (k, b) : Fin 128)))
  -- First cut into quarters and runs, then reorder the sums as the loops run.
  calc ∑ b : Fin 128, f (finProdFinEquiv (half, b))
      = ∑ k : Fin 4, ∑ is : Fin 2, ∑ i : Fin 16,
          f (finProdFinEquiv (half, (finProdFinEquiv (k, (finProdFinEquiv (is, i) : Fin 32)) : Fin 128))) :=
        hquarters.trans (Finset.sum_congr rfl fun k _ => hruns k)
    _ = ∑ k : Fin 4, ∑ is : Fin 2, ∑ i : Fin 16,
          f ⟨128 * half.val + (16 * is.val + i.val) + 32 * k.val, by omega⟩ := by
        refine Finset.sum_congr rfl fun k _ => Finset.sum_congr rfl fun is _ => Finset.sum_congr rfl fun i _ => ?_
        refine congrArg f (Fin.ext ?_)
        rw [finProdFinEquiv_apply_val]
        dsimp only
        rw [finProdFinEquiv_apply_val]
        dsimp only
        rw [finProdFinEquiv_apply_val]
        dsimp only
        omega
    _ = ∑ is : Fin 2, ∑ i : Fin 16, ∑ k : Fin 4,
          f ⟨128 * half.val + (16 * is.val + i.val) + 32 * k.val, by omega⟩ := by
        rw [Finset.sum_comm]
        exact Finset.sum_congr rfl fun is _ => Finset.sum_comm

omit [F32 F] in
/-- One run adds the products of its 64 elements, scaled. -/
private theorem q6kStep_adds {w : Vector UInt8 210} {xq : Q8Block F} {n : Nat} {half is : Fin 2}
    {sums sums' : Vector Int 16} (h : q6kStep w xq n half sums is = .ok sums') :
    weighted (q6kScale w) sums' = weighted (q6kScale w) sums + ∑ i : Fin 16, ∑ k : Fin 4,
      if 128 * half.val + (16 * is.val + i.val) + 32 * k.val < n then
        (q6kCodes w).scale ⟨128 * half + (16 * is + i) + 32 * k, Offset.run_cell half is i k⟩ *
          ((q6kCodes w).code ⟨128 * half + (16 * is + i) + 32 * k, Offset.run_cell half is i k⟩ - 32) *
          (getElem xq.qs (128 * half.val + (16 * is.val + i.val) + 32 * k.val) (Offset.run_cell half is i k)).toInt
      else 0 := by
  have hterm : ∀ (i : Fin 16) (k : Fin 4), runScale w half is k * runProduct w xq half is i k =
      (q6kCodes w).scale ⟨128 * half + (16 * is + i) + 32 * k, by omega⟩ *
        ((q6kCodes w).code ⟨128 * half + (16 * is + i) + 32 * k, by omega⟩ - 32) *
        xq.qs[128 * half.val + (16 * is.val + i.val) + 32 * k.val].toInt := by
    intro i k
    obtain ⟨hscale, hcode⟩ := q6kCodes_run w half is i k
    unfold runProduct
    rw [hscale, hcode, Int.mul_assoc]
  unfold q6kStep at h
  split at h
  next hfull =>
    -- the last index of the run lies below `n`, and so do the other 63
    rw [fullRun_adds h]
    refine congrArg _ (Finset.sum_congr rfl fun i _ => Finset.sum_congr rfl fun k _ => ?_)
    rw [if_pos (by omega), hterm]
  next =>
    rw [partialRun_adds h]
    refine congrArg _ (Finset.sum_congr rfl fun i _ => Finset.sum_congr rfl fun k _ => ?_)
    rw [mul_ite, mul_zero, hterm]

/-- The sums of the sixteen scales. -/
def q6kBuckets (w : Vector UInt8 210) (xq : Q8Block F) (n : Nat) : Res (Vector Int 16) :=
  (List.finRange 2).foldlM (fun sums half =>
    (List.finRange 2).foldlM (q6kStep w xq n half) sums) (Vector.replicate 16 0)

/-- The integer accumulator of a block dot. -/
def q6kAccumulator (w : Vector UInt8 210) (xq : Q8Block F) (n : Nat) : Res Int := do
  let sums ← q6kBuckets w xq n
  (List.finRange 16).foldlM (fun acc j => mac acc (q6kScale w j) (getElem sums j.val (Offset.bucket j))) 0

theorem dotQ6kQ8Block_eq (w : Vector UInt8 210) (xq : Q8Block F) (n : Nat) :
    dotQ6kQ8Block w xq n = (q6kAccumulator w xq n >>= fun acc =>
      pure (F32.mul (F32.mul (f16Le (getElem w 208 Offset.q6k_d0) (getElem w 209 Offset.q6k_d1)) xq.d) (F32.ofInt acc))) := by
  unfold dotQ6kQ8Block q6kAccumulator q6kBuckets
  rw [bind_assoc]

omit [F32 F] in
/-- The accumulator of a block dot that does not overflow. -/
theorem q6kAccumulator_eq {w : Vector UInt8 210} {xq : Q8Block F} {n : Nat} {acc : Int}
    (h : q6kAccumulator w xq n = .ok acc) :
    acc = ∑ i : Fin 256 with i.val < n, (q6kCodes w).scale i * ((q6kCodes w).code i - 32) * xq.qs[i.val].toInt := by
  obtain ⟨sums, hsums, hacc⟩ := bind_eq_ok.mp h
  have hbuckets : weighted (q6kScale w) sums = _ := foldlM_finRange_adds (weighted (q6kScale w)) _
    (fun v half v' hhalf => foldlM_finRange_adds (weighted (q6kScale w)) _
      (fun v is v' (his : q6kStep w xq n half v is = .ok v') => q6kStep_adds his) hhalf) hsums
  have hscaled : acc = 0 + weighted (q6kScale w) sums :=
    foldlM_finRange_adds id (fun j : Fin 16 => q6kScale w j * sums[j.val]) (fun s j s' hs => mac_eq hs) hacc
  rw [hscaled, Int.zero_add, hbuckets, weighted_zero, Int.zero_add, Finset.sum_filter, sum_q6k_runs]

/-- The block dot of Q6_K against quantized activations: no operation overflows, and the accumulator is the
sum over the elements below the number of activations. -/
theorem dotQ6kQ8Block_exact (w : Vector UInt8 210) (x : List F) (hx : x.length ≤ 256) :
    ∃ xq, quantizeBlockQ8 x = .ok xq ∧
      (∀ i : Fin 256, (q6kWeights w : List F)[i.val]? = some ((q6kCodes w).element i)) ∧
      q6kAccumulator w xq x.length = .ok (∑ i : Fin 256 with i.val < x.length,
        (q6kCodes w).scale i * ((q6kCodes w).code i - 32) * xq.qs[i.val].toInt) ∧
      ∃ v, dotQ6kQ8Block w xq x.length = .ok v := by
  obtain ⟨xq, hquantize, hbounded⟩ := quantizeBlockQ8_ok hx
  obtain ⟨v, hv⟩ := dotQ6kQ8Block_ok w hbounded x.length
  have hrun := hv
  rw [dotQ6kQ8Block_eq] at hrun
  obtain ⟨acc, hacc, -⟩ := bind_eq_ok.mp hrun
  exact ⟨xq, hquantize, q6kWeights_element w, hacc.trans (congrArg Except.ok (q6kAccumulator_eq hacc)), v, hv⟩

theorem dotQ6kQ8Block_exact_cut :
    ∃ xq, quantizeBlockQ8 (risingRow 100) = .ok xq ∧
      (∀ i : Fin 256, (q6kWeights (variedBlock 210) : List Binary32)[i.val]? =
        some ((q6kCodes (variedBlock 210)).element i)) ∧
      q6kAccumulator (variedBlock 210) xq (risingRow 100).length = .ok
        (∑ i : Fin 256 with i.val < (risingRow 100).length,
          (q6kCodes (variedBlock 210)).scale i * ((q6kCodes (variedBlock 210)).code i - 32) *
            xq.qs[i.val].toInt) ∧
      ∃ v, dotQ6kQ8Block (variedBlock 210) xq (risingRow 100).length = .ok v :=
  dotQ6kQ8Block_exact (variedBlock 210) (risingRow 100) (by rw [length_risingRow]; decide)

end VitniTensor
