import VitniTensor.Quant.Blocks
import VitniTensor.Quant.Reduce

/-!
# Integer dot products

Activations quantized to `i8`, one block of 256 at a time, and their exact dot products with
Q4_K and Q6_K super-blocks. Every `i32` operation is checked, and none of them overflows.
-/

namespace VitniTensor

open Outcome

variable {F : Type} [F32 F]

/-! ### Checked `i32` arithmetic -/

/-- The value of an `i32` operator, which panics when the result does not fit. -/
def int32 (v : Int) : Res Int :=
  if -2 ^ 31 ≤ v ∧ v < 2 ^ 31 then .ok v else .error (.panic .overflow)

/-- `s += a * b`. -/
def mac (s a b : Int) : Res Int := do
  let p ← int32 (a * b)
  int32 (s + p)

theorem int32_of_natAbs {v : Int} (h : v.natAbs < 2 ^ 31) : int32 v = .ok v :=
  if_pos (by omega)

theorem mac_ok {s a b : Int} (S A B : Nat) (hs : s.natAbs ≤ S) (ha : a.natAbs ≤ A)
    (hb : b.natAbs ≤ B) (hfit : S + A * B < 2 ^ 31) :
    ∃ r, mac s a b = .ok r ∧ r.natAbs ≤ S + A * B := by
  have hp : (a * b).natAbs ≤ A * B := by
    rw [Int.natAbs_mul]
    exact Nat.mul_le_mul ha hb
  have hr : (s + a * b).natAbs ≤ S + A * B :=
    Nat.le_trans (Int.natAbs_add_le s (a * b)) (Nat.add_le_add hs hp)
  unfold mac
  rw [int32_of_natAbs (by omega), ok_bind, int32_of_natAbs (by omega)]
  exact ⟨_, rfl, hr⟩

/-! ### Quantized activations -/

structure Q8Block (F : Type) where
  d : F
  qs : Vector Int8 256
  /-- The sums of `qs` over each group of 32. -/
  bsums : Vector Int 8

/-- The `i8` code of one activation, rounded half away from zero. -/
def q8Code (inv v : F) : Int :=
  let scaled := F32.mul v inv
  let bias : F := if F32.le F32.zero scaled then F32.ofBits 0x3F000000 else F32.ofBits 0xBF000000
  max (-127) (min 127 (F32.toI32 (F32.add scaled bias)))

/-- The loop over the activations from index `i` on. -/
def q8Codes (inv : F) : (i : Nat) → List F → Vector Int8 256 × Vector Int 8 →
    Res (Vector Int8 256 × Vector Int 8)
  | _, [], s => .ok s
  | i, v :: x, (qs, bsums) =>
    if h : i < 256 then do
      let q := q8Code inv v
      let sum ← int32 (bsums[i / 32] + q)
      q8Codes inv (i + 1) x (qs.set i (Int8.ofInt q), bsums.set (i / 32) sum)
    else .error (.panic .outOfRange)

/-- The largest magnitude of a block. -/
def amaxOf (x : List F) : F :=
  x.foldl (fun amax v =>
    let a := if F32.lt v F32.zero then F32.neg v else v
    if F32.lt amax a then a else amax) F32.zero

def quantizeBlockQ8 (x : List F) : Res (Q8Block F) :=
  -- debug_assert!
  if x.length > 256 then .error (.panic .explicit)
  else do
    let d := F32.div (amaxOf x) (F32.ofBits 0x42FE0000)
    let inv := if F32.eq d F32.zero then F32.zero else F32.div F32.one d
    let (qs, bsums) ← q8Codes inv 0 x (Vector.replicate 256 0, Vector.replicate 8 0)
    pure ⟨d, qs, bsums⟩

/-! ### Offsets inside a super-block -/

namespace Offset

theorem code (i : Fin 256) : i.val < 256 := i.isLt

/-- The two halves of a sub-block pair, in its codes and in its sums. -/
theorem codes_low (half : Fin 4) (l : Fin 32) : 64 * half.val + l.val < 256 := by omega
theorem codes_high (half : Fin 4) (l : Fin 32) : 64 * half.val + 32 + l.val < 256 := by omega
theorem sums_low (half : Fin 4) : half.val * 2 < 8 := by omega
theorem sums_high (half : Fin 4) : half.val * 2 + 1 < 8 := by omega

theorem bucket (j : Fin 16) : j.val < 16 := j.isLt

/-- Element `i` of a run of 16, its cell in quarter `k`, and the scale of that quarter. -/
theorem run_element (is : Fin 2) (i : Fin 16) : 16 * is.val + i.val < 32 := by omega
theorem run_cell (half is : Fin 2) (i : Fin 16) (k : Fin 4) :
    128 * half.val + (16 * is.val + i.val) + 32 * k.val < 256 := by omega
theorem run_scale (half is : Fin 2) (k : Fin 4) : 8 * half.val + is.val + 2 * k.val < 16 := by omega

end Offset

/-! ### Q4_K -/

/-- One packed byte against one code of each half. -/
def dot32Step (s : Int × Int) (t : (UInt8 × Int8) × Int8) : Res (Int × Int) := do
  let sLo ← mac s.1 (lowNibble t.1.1) t.1.2.toInt
  let sHi ← mac s.2 (highNibble t.1.1) t.2.toInt
  pure (sLo, sHi)

def dot32PairScalar (qsl : List UInt8) (xlo xhi : List Int8) : Res (Int × Int) :=
  ((qsl.zip xlo).zip xhi).foldlM dot32Step (0, 0)

/-- The sub-block pair `half`, slice against slice. -/
def fullPair (w : Vector UInt8 144) (xq : Q8Block F) (half : Fin 4) : Res (Int × Int) :=
  dot32PairScalar
    ((List.finRange 32).map fun l : Fin 32 => getElem w (16 + 32 * half.val + l.val) (Offset.q4k_qs half l))
    ((List.finRange 32).map fun l : Fin 32 => xq.qs[64 * half.val + l.val])
    ((List.finRange 32).map fun l : Fin 32 => xq.qs[64 * half.val + 32 + l.val])

/-- `if i < n { s += code * qs[i] }`. -/
def macBelow (n i : Nat) (s code : Int) (x : Int8) : Res Int :=
  if i < n then mac s code x.toInt else .ok s

def partialStep (w : Vector UInt8 144) (xq : Q8Block F) (n : Nat) (half : Fin 4) (s : Int × Int)
    (l : Fin 32) : Res (Int × Int) := do
  let qb := getElem w (16 + 32 * half.val + l.val) (Offset.q4k_qs half l)
  let sLo ← macBelow n (64 * half + l) s.1 (lowNibble qb) xq.qs[64 * half.val + l.val]
  let sHi ← macBelow n (64 * half + 32 + l) s.2 (highNibble qb) xq.qs[64 * half.val + 32 + l.val]
  pure (sLo, sHi)

/-- The sub-block pair `half`, element by element. -/
def partialPair (w : Vector UInt8 144) (xq : Q8Block F) (n : Nat) (half : Fin 4) : Res (Int × Int) :=
  (List.finRange 32).foldlM (partialStep w xq n half) (0, 0)

/-- `acc += a * x + b * y`. -/
def mac2 (acc a x b y : Int) : Res Int := do
  let p ← int32 (a * x)
  let q ← int32 (b * y)
  let r ← int32 (p + q)
  int32 (acc + r)

/-- The two sums of a sub-block pair: the fast path when the whole pair lies below `n`. -/
def pairSums (w : Vector UInt8 144) (xq : Q8Block F) (n : Nat) (half : Fin 4) : Res (Int × Int) :=
  if 64 * half.val + 64 ≤ n then fullPair w xq half else partialPair w xq n half

/-- One sub-block pair into `(acc, acc_m)`. -/
def q4kStep (w : Vector UInt8 144) (xq : Q8Block F) (n : Nat) (accs : Int × Int) (half : Fin 4) :
    Res (Int × Int) := do
  let lo := getScaleMinK4 ⟨half * 2, by omega⟩ (q4kScales w)
  let hi := getScaleMinK4 ⟨half * 2 + 1, by omega⟩ (q4kScales w)
  let s ← pairSums w xq n half
  let acc ← mac2 accs.1 lo.1.toNat s.1 hi.1.toNat s.2
  let accM ← mac2 accs.2 lo.2.toNat xq.bsums[half.val * 2] hi.2.toNat xq.bsums[half.val * 2 + 1]
  pure (acc, accM)

def dotQ4kQ8Block (w : Vector UInt8 144) (xq : Q8Block F) (n : Nat) : Res F := do
  let d : F := f16Le (getElem w 0 Offset.q4k_d0) (getElem w 1 Offset.q4k_d1)
  let dmin : F := f16Le (getElem w 2 Offset.q4k_dmin0) (getElem w 3 Offset.q4k_dmin1)
  let accs ← (List.finRange 4).foldlM (q4kStep w xq n) (0, 0)
  pure (F32.sub (F32.mul (F32.mul d xq.d) (F32.ofInt accs.1))
    (F32.mul (F32.mul dmin xq.d) (F32.ofInt accs.2)))

/-- The loop over the super-blocks of a row from index `b` on. -/
def integerParts (x : List F) (n : Nat) : (b : Nat) → List (Vector UInt8 144) → List F → Res (List F)
  | _, [], parts => .ok parts
  | b, block :: blocks, parts =>
    let base := b * 256
    if base ≥ n then .ok parts
    else do
      let avail := min 256 (n - base)
      let xs ← slice x base (base + avail)
      let xq ← quantizeBlockQ8 xs
      let part ← dotQ4kQ8Block block xq avail
      integerParts x n (b + 1) blocks (parts ++ [part])

def integerDotQ4k (x : List F) (w : List UInt8) (n : Nat) : Res F :=
  if w.length % 144 ≠ 0 then .error (.err (.internal "Q4_K byte length not a multiple of 144"))
  else if n = 0 then .ok F32.zero
  else do
    let parts ← integerParts x n 0 (blocksOf 144 w) []
    fixedTree parts

/-! ### Q6_K -/

/-- Element `i` of a run into the accumulator of quarter `k`. -/
def runStep (w : Vector UInt8 210) (xq : Q8Block F) (half is : Fin 2) (i : Fin 16) (a : Vector Int 4)
    (k : Fin 4) : Res (Vector Int 4) := do
  let s ← mac a[k.val] (q6kCode w half k ⟨16 * is + i, by omega⟩)
    xq.qs[128 * half.val + (16 * is.val + i.val) + 32 * k.val].toInt
  pure (a.set k s)

/-- `sums[sc_p + is + 2 * k] += a[k]`. -/
def addRun (half is : Fin 2) (a : Vector Int 4) (sums : Vector Int 16) (k : Fin 4) :
    Res (Vector Int 16) := do
  let s ← int32 (sums[8 * half.val + is.val + 2 * k.val] + a[k.val])
  pure (sums.set (8 * half.val + is.val + 2 * k.val) s)

/-- A run of 16 elements in each quarter of a half, all of them below `n`. -/
def fullRun (w : Vector UInt8 210) (xq : Q8Block F) (half is : Fin 2) (sums : Vector Int 16) :
    Res (Vector Int 16) := do
  let a ← (List.finRange 16).foldlM (fun a i => (List.finRange 4).foldlM (runStep w xq half is i) a)
    (Vector.replicate 4 0)
  (List.finRange 4).foldlM (addRun half is a) sums

/-- Element `i` of a run straight into the sum of its scale, if it is below `n`. -/
def partialRunStep (w : Vector UInt8 210) (xq : Q8Block F) (n : Nat) (half is : Fin 2) (i : Fin 16)
    (sums : Vector Int 16) (k : Fin 4) : Res (Vector Int 16) := do
  let s ← macBelow n (128 * half + (16 * is + i) + 32 * k)
    sums[8 * half.val + is.val + 2 * k.val] (q6kCode w half k ⟨16 * is + i, by omega⟩)
    xq.qs[128 * half.val + (16 * is.val + i.val) + 32 * k.val]
  pure (sums.set (8 * half.val + is.val + 2 * k.val) s)

/-- The same run, element by element. -/
def partialRun (w : Vector UInt8 210) (xq : Q8Block F) (n : Nat) (half is : Fin 2)
    (sums : Vector Int 16) : Res (Vector Int 16) :=
  (List.finRange 16).foldlM (fun sums i =>
    (List.finRange 4).foldlM (partialRunStep w xq n half is i) sums) sums

/-- The run `is` of a half: its last index is 96 past the last of the first quarter. -/
def q6kStep (w : Vector UInt8 210) (xq : Q8Block F) (n : Nat) (half : Fin 2) (sums : Vector Int 16)
    (is : Fin 2) : Res (Vector Int 16) :=
  if 128 * half.val + 16 * is.val + 15 + 96 < n then fullRun w xq half is sums
  else partialRun w xq n half is sums

def dotQ6kQ8Block (w : Vector UInt8 210) (xq : Q8Block F) (n : Nat) : Res F := do
  let d : F := f16Le (getElem w 208 Offset.q6k_d0) (getElem w 209 Offset.q6k_d1)
  let sums ← (List.finRange 2).foldlM (fun sums half =>
    (List.finRange 2).foldlM (q6kStep w xq n half) sums) (Vector.replicate 16 0)
  let acc ← (List.finRange 16).foldlM (fun acc j => mac acc (q6kScale w j) (getElem sums j.val (Offset.bucket j))) 0
  pure (F32.mul (F32.mul d xq.d) (F32.ofInt acc))

/-! ### Quantized activations are small -/

/-- Codes within `-127..=127`, and sums of at most 32 of them. -/
structure Q8Block.Bounded (q : Q8Block F) : Prop where
  codes : ∀ i (h : i < 256), q.qs[i].toInt.natAbs ≤ 127
  sums : ∀ j (h : j < 8), q.bsums[j].natAbs ≤ 4064

theorem natAbs_q8Code (inv v : F) : (q8Code inv v).natAbs ≤ 127 := by
  unfold q8Code
  dsimp only
  omega

/-- The loop invariant: group `j` has received `min 32 (i - 32 * j)` codes before index `i`. -/
private theorem q8Codes_ok (inv : F) (x : List F) (i : Nat) (qs : Vector Int8 256)
    (bsums : Vector Int 8) (hlen : i + x.length ≤ 256)
    (hcodes : ∀ k (h : k < 256), qs[k].toInt.natAbs ≤ 127)
    (hsums : ∀ j (h : j < 8), bsums[j].natAbs ≤ 127 * min 32 (i - 32 * j)) :
    ∃ qs' bsums', q8Codes inv i x (qs, bsums) = .ok (qs', bsums') ∧
      (∀ k (h : k < 256), qs'[k].toInt.natAbs ≤ 127) ∧
      ∀ j (h : j < 8), bsums'[j].natAbs ≤ 4064 := by
  induction x generalizing i qs bsums with
  | nil => exact ⟨qs, bsums, rfl, hcodes, fun j h => by have := hsums j h; omega⟩
  | cons v x ih =>
    simp only [List.length_cons] at hlen
    have hi : i < 256 := by omega
    have hq := natAbs_q8Code inv v
    have hq8 : (Int8.ofInt (q8Code inv v)).toInt = q8Code inv v :=
      Int8.toInt_ofInt_of_le (by omega) (by omega)
    have hold := hsums (i / 32) (by omega)
    have hadd := Int.natAbs_add_le bsums[i / 32] (q8Code inv v)
    simp only [q8Codes, dif_pos hi]
    rw [int32_of_natAbs (by omega), ok_bind]
    refine ih (i + 1) _ _ (by omega) (fun k hk => ?_) (fun j hj => ?_)
    · by_cases hki : i = k
      · subst hki
        rw [Vector.getElem_set_self, hq8]
        exact hq
      · rw [Vector.getElem_set_ne _ _ hki]
        exact hcodes k hk
    · by_cases hji : i / 32 = j
      · subst hji
        rw [Vector.getElem_set_self]
        omega
      · rw [Vector.getElem_set_ne _ _ hji]
        have := hsums j hj
        omega

theorem quantizeBlockQ8_ok {x : List F} (h : x.length ≤ 256) :
    ∃ q, quantizeBlockQ8 x = .ok q ∧ q.Bounded := by
  unfold quantizeBlockQ8
  rw [if_neg (by omega)]
  obtain ⟨qs, bsums, hrun, hcodes, hsums⟩ := q8Codes_ok
    (if F32.eq (F32.div (amaxOf x) (F32.ofBits 0x42FE0000)) F32.zero then F32.zero
      else F32.div F32.one (F32.div (amaxOf x) (F32.ofBits 0x42FE0000)))
    x 0 (Vector.replicate 256 0) (Vector.replicate 8 0) (by omega) (by simp) (by simp)
  simp only [hrun, ok_bind]
  exact ⟨_, rfl, hcodes, hsums⟩

/-! ### No `i32` operation of a block dot overflows -/

section

omit [F32 F]

private theorem natAbs_lowNibble (b : UInt8) : (lowNibble b).natAbs ≤ 15 := by
  have h : (b &&& 0x0F).toNat ≤ 15 := by
    rw [UInt8.toNat_and]
    exact Nat.and_le_right
  unfold lowNibble
  omega

private theorem natAbs_highNibble (b : UInt8) : (highNibble b).natAbs ≤ 15 := by
  have hb := b.toNat_lt
  have h : (b >>> 4).toNat = b.toNat / 16 := by
    rw [UInt8.toNat_shiftRight]
    exact Nat.shiftRight_eq_div_pow _ 4
  unfold highNibble
  omega

private theorem natAbs_byte (b : UInt8) : ((b.toNat : Int)).natAbs ≤ 255 := by
  have hb := b.toNat_lt
  omega

private theorem macBelow_ok {n i : Nat} {s code : Int} {x : Int8} (S A B : Nat) (hs : s.natAbs ≤ S)
    (ha : code.natAbs ≤ A) (hb : x.toInt.natAbs ≤ B) (hfit : S + A * B < 2 ^ 31) :
    ∃ r, macBelow n i s code x = .ok r ∧ r.natAbs ≤ S + A * B := by
  unfold macBelow
  split
  next => exact mac_ok S A B hs ha hb hfit
  next => exact ⟨s, rfl, by omega⟩

/-- Two sub-block sums after `k` terms. -/
private def PairBound (k : Nat) (s : Int × Int) : Prop :=
  s.1.natAbs ≤ k * 1905 ∧ s.2.natAbs ≤ k * 1905

private theorem pairBound_zero : PairBound 0 (0, 0) :=
  ⟨Nat.zero_le _, Nat.zero_le _⟩

private theorem dot32Step_ok {k : Nat} (hk : k < 32) {s : Int × Int} (hs : PairBound k s)
    {t : (UInt8 × Int8) × Int8} (hxl : t.1.2.toInt.natAbs ≤ 127) (hxh : t.2.toInt.natAbs ≤ 127) :
    ∃ s', dot32Step s t = .ok s' ∧ PairBound (k + 1) s' := by
  obtain ⟨lo, hlo, hlo'⟩ := mac_ok (k * 1905) 15 127 hs.1 (natAbs_lowNibble t.1.1) hxl (by omega)
  obtain ⟨hi, hhi, hhi'⟩ := mac_ok (k * 1905) 15 127 hs.2 (natAbs_highNibble t.1.1) hxh (by omega)
  refine ⟨(lo, hi), ?_, by unfold PairBound; omega⟩
  simp only [dot32Step, hlo, hhi, ok_bind]
  rfl

private theorem fullPair_ok (w : Vector UInt8 144) {xq : Q8Block F} (hxq : xq.Bounded) (half : Fin 4) :
    ∃ s, fullPair w xq half = .ok s ∧ PairBound 32 s := by
  have hcodes : ∀ t ∈ ((((List.finRange 32).map fun l : Fin 32 => w[16 + 32 * half.val + l.val]).zip
      ((List.finRange 32).map fun l : Fin 32 => xq.qs[64 * half.val + l.val])).zip
      ((List.finRange 32).map fun l : Fin 32 => xq.qs[64 * half.val + 32 + l.val])),
      t.1.2.toInt.natAbs ≤ 127 ∧ t.2.toInt.natAbs ≤ 127 := by
    intro t ht
    obtain ⟨l, -, hl⟩ := List.mem_map.mp (List.of_mem_zip (List.of_mem_zip ht).1).2
    obtain ⟨h, -, hh⟩ := List.mem_map.mp (List.of_mem_zip ht).2
    rw [← hl, ← hh]
    exact ⟨hxq.codes _ _, hxq.codes _ _⟩
  obtain ⟨s, hrun, hbound⟩ := foldlM_ok PairBound _ pairBound_zero fun k t s ht hs => by
    obtain ⟨hk, -⟩ := List.getElem?_eq_some_iff.mp ht
    obtain ⟨hlo, hhi⟩ := hcodes t (List.mem_of_getElem? ht)
    exact dot32Step_ok (by simpa using hk) hs hlo hhi
  exact ⟨s, hrun, by simpa using hbound⟩

private theorem partialStep_ok (w : Vector UInt8 144) {xq : Q8Block F} (hxq : xq.Bounded) (n : Nat)
    (half : Fin 4) {k : Nat} (hk : k < 32) {s : Int × Int} (hs : PairBound k s) (l : Fin 32) :
    ∃ s', partialStep w xq n half s l = .ok s' ∧ PairBound (k + 1) s' := by
  have hxl := hxq.codes (64 * half.val + l.val) (by omega)
  have hxh := hxq.codes (64 * half.val + 32 + l.val) (by omega)
  obtain ⟨lo, hlo, hlo'⟩ := @macBelow_ok n (64 * half + l) _ _ _ (k * 1905) 15 127 hs.1
    (natAbs_lowNibble w[16 + 32 * half.val + l.val]) hxl (by omega)
  obtain ⟨hi, hhi, hhi'⟩ := @macBelow_ok n (64 * half + 32 + l) _ _ _ (k * 1905) 15 127 hs.2
    (natAbs_highNibble w[16 + 32 * half.val + l.val]) hxh (by omega)
  refine ⟨(lo, hi), ?_, by unfold PairBound; omega⟩
  simp only [partialStep, hlo, hhi, ok_bind]
  rfl

private theorem partialPair_ok (w : Vector UInt8 144) {xq : Q8Block F} (hxq : xq.Bounded) (n : Nat)
    (half : Fin 4) : ∃ s, partialPair w xq n half = .ok s ∧ PairBound 32 s :=
  foldlM_finRange_ok PairBound pairBound_zero fun l _ hs => partialStep_ok w hxq n half l.isLt hs l

private theorem pairSums_ok (w : Vector UInt8 144) {xq : Q8Block F} (hxq : xq.Bounded) (n : Nat)
    (half : Fin 4) : ∃ s, pairSums w xq n half = .ok s ∧ PairBound 32 s := by
  unfold pairSums
  split
  next => exact fullPair_ok w hxq half
  next => exact partialPair_ok w hxq n half

private theorem mac2_ok {acc a x b y : Int} (S A X : Nat) (hacc : acc.natAbs ≤ S)
    (ha : a.natAbs ≤ A) (hx : x.natAbs ≤ X) (hb : b.natAbs ≤ A) (hy : y.natAbs ≤ X)
    (hfit : S + 2 * (A * X) < 2 ^ 31) :
    ∃ r, mac2 acc a x b y = .ok r ∧ r.natAbs ≤ S + 2 * (A * X) := by
  have hp : (a * x).natAbs ≤ A * X := by
    rw [Int.natAbs_mul]
    exact Nat.mul_le_mul ha hx
  have hq : (b * y).natAbs ≤ A * X := by
    rw [Int.natAbs_mul]
    exact Nat.mul_le_mul hb hy
  have hr := Int.natAbs_add_le (a * x) (b * y)
  have ht := Int.natAbs_add_le acc (a * x + b * y)
  unfold mac2
  rw [int32_of_natAbs (by omega), ok_bind, int32_of_natAbs (by omega), ok_bind,
    int32_of_natAbs (by omega), ok_bind, int32_of_natAbs (by omega)]
  exact ⟨_, rfl, by omega⟩

/-- The two accumulators after `k` sub-block pairs. -/
private def AccBound (k : Nat) (accs : Int × Int) : Prop :=
  accs.1.natAbs ≤ k * (2 * (255 * 60960)) ∧ accs.2.natAbs ≤ k * (2 * (255 * 4064))

private theorem q4kStep_ok (w : Vector UInt8 144) {xq : Q8Block F} (hxq : xq.Bounded) (n : Nat)
    {k : Nat} (hk : k < 4) {accs : Int × Int} (haccs : AccBound k accs) (half : Fin 4) :
    ∃ accs', q4kStep w xq n accs half = .ok accs' ∧ AccBound (k + 1) accs' := by
  obtain ⟨s, hs, hlo, hhi⟩ := pairSums_ok w hxq n half
  obtain ⟨acc, hacc, hacc'⟩ := mac2_ok (k * (2 * (255 * 60960))) 255 60960 haccs.1
    (natAbs_byte (getScaleMinK4 ⟨half * 2, by omega⟩ (q4kScales w)).1) hlo
    (natAbs_byte (getScaleMinK4 ⟨half * 2 + 1, by omega⟩ (q4kScales w)).1) hhi (by omega)
  obtain ⟨accM, haccM, haccM'⟩ := mac2_ok (k * (2 * (255 * 4064))) 255 4064 haccs.2
    (natAbs_byte (getScaleMinK4 ⟨half * 2, by omega⟩ (q4kScales w)).2)
    (hxq.sums (half.val * 2) (by omega))
    (natAbs_byte (getScaleMinK4 ⟨half * 2 + 1, by omega⟩ (q4kScales w)).2)
    (hxq.sums (half.val * 2 + 1) (by omega)) (by omega)
  refine ⟨(acc, accM), ?_, by unfold AccBound; omega⟩
  simp only [q4kStep, hs, hacc, haccM, ok_bind]
  rfl

private theorem natAbs_q6kCode (w : Vector UInt8 210) (half : Fin 2) (k : Fin 4) (l : Fin 32) :
    (q6kCode w half k l).natAbs ≤ 32 := by
  have hor : ∀ low high : UInt8, low.toNat < 16 → high.toNat < 4 →
      (low ||| (high <<< 4)).toNat < 2 ^ 6 := by
    intro low high hlow hhigh
    rw [UInt8.toNat_or]
    refine Nat.or_lt_two_pow (by omega) ?_
    rw [UInt8.toNat_shiftLeft, Nat.shiftLeft_eq]
    have : (4 : UInt8).toNat % 8 = 4 := rfl
    rw [this]
    omega
  have hmask : ∀ b : UInt8, (b &&& 0x0F).toNat < 16 := by
    intro b
    rw [UInt8.toNat_and]
    exact Nat.lt_succ_of_le Nat.and_le_right
  have hmask' : ∀ b : UInt8, (b &&& 0x03).toNat < 4 := by
    intro b
    rw [UInt8.toNat_and]
    exact Nat.lt_succ_of_le Nat.and_le_right
  have hshift : ∀ b : UInt8, (b >>> 4).toNat < 16 := by
    intro b
    have := natAbs_highNibble b
    unfold highNibble at this
    omega
  have hcode : ∀ low high : UInt8, low.toNat < 16 → high.toNat < 4 →
      (((low ||| (high <<< 4)).toNat : Int) - 32).natAbs ≤ 32 := by
    intro low high hlow hhigh
    have := hor low high hlow hhigh
    omega
  unfold q6kCode
  match k with
  | 0 => exact hcode _ _ (hmask _) (hmask' _)
  | 1 => exact hcode _ _ (hmask _) (hmask' _)
  | 2 => exact hcode _ _ (hshift _) (hmask' _)
  | 3 => exact hcode _ _ (hshift _) (hmask' _)

/-- Every cell within a bound. -/
private def CellBound {n : Nat} (B : Nat) (v : Vector Int n) : Prop :=
  ∀ j (h : j < n), v[j].natAbs ≤ B

/-- A loop over cells `pos 0, pos 1, ..` that adds at most `A` to each of them once. -/
private theorem addCells_ok {m n A B : Nat} {pos : Fin m → Fin n} (hinj : Function.Injective pos)
    (body : Vector Int n → Fin m → Res (Vector Int n))
    (hbody : ∀ v k, v[(pos k).val].natAbs ≤ B →
      ∃ s, body v k = .ok (v.set (pos k) s) ∧ s.natAbs ≤ B + A)
    {v : Vector Int n} (hv : CellBound B v) :
    ∃ v', (List.finRange m).foldlM body v = .ok v' ∧ CellBound (B + A) v' := by
  -- a cell is past `B` only if the loop has been there
  obtain ⟨v', hrun, hinv⟩ := @foldlM_finRange_ok Error (Vector Int n) m
    (fun k (v : Vector Int n) => ∀ j (h : j < n), v[j].natAbs ≤ B ∨
      (v[j].natAbs ≤ B + A ∧ ∃ k' : Fin m, k'.val < k ∧ (pos k').val = j)) body v
    (fun j h => .inl (hv j h)) fun k v hk => by
      have hcell : v[(pos k).val].natAbs ≤ B := by
        rcases hk (pos k).val (pos k).isLt with h | ⟨-, k', hlt, heq⟩
        · exact h
        · have := hinj (Fin.ext heq)
          omega
      obtain ⟨s, hs, hs'⟩ := hbody v k hcell
      refine ⟨_, hs, fun j hj => ?_⟩
      by_cases hkj : (pos k).val = j
      · subst hkj
        rw [Vector.getElem_set_self]
        exact .inr ⟨hs', k, Nat.lt_succ_self _, rfl⟩
      · rw [Vector.getElem_set_ne _ _ hkj]
        rcases hk j hj with h | ⟨h, k', hlt, heq⟩
        · exact .inl h
        · exact .inr ⟨h, k', Nat.lt_succ_of_lt hlt, heq⟩
  refine ⟨v', hrun, fun j hj => ?_⟩
  rcases hinv j hj with h | ⟨h, -⟩ <;> omega

/-- The cells of `sums` that a run writes, one for each quarter. -/
private def runCell (half is : Fin 2) (k : Fin 4) : Fin 16 :=
  ⟨8 * half + is + 2 * k, by omega⟩

private theorem runCell_injective (half is : Fin 2) : Function.Injective (runCell half is) := by
  intro k k' h
  have hval : 8 * half.val + is.val + 2 * k.val = 8 * half.val + is.val + 2 * k'.val :=
    congrArg Fin.val h
  exact Fin.ext (by omega)

private theorem fullRun_ok (w : Vector UInt8 210) {xq : Q8Block F} (hxq : xq.Bounded) (half is : Fin 2)
    {B : Nat} (hB : B + 65024 < 2 ^ 31) {sums : Vector Int 16} (hsums : CellBound B sums) :
    ∃ sums', fullRun w xq half is sums = .ok sums' ∧ CellBound (B + 65024) sums' := by
  have hzero : CellBound (0 * 4064) (Vector.replicate 4 (0 : Int)) := by
    intro j hj
    simp
  -- 16 turns, each adding one product to each of the four accumulators
  obtain ⟨a, ha, hbound⟩ := foldlM_finRange_ok (fun i a => CellBound (i * 4064) a) hzero
    fun (i : Fin 16) a hi => by
      obtain ⟨a', hrun, ha'⟩ := addCells_ok (A := 4064) (Function.injective_id (α := Fin 4))
        (runStep w xq half is i) (fun v k hv => by
          obtain ⟨s, hs, hs'⟩ := mac_ok (i * 4064) 32 127 hv
            (natAbs_q6kCode w half k ⟨16 * is + i, by omega⟩)
            (hxq.codes (128 * half.val + (16 * is.val + i.val) + 32 * k.val) (by omega)) (by omega)
          refine ⟨s, ?_, hs'⟩
          simp only [id_eq] at hs
          simp only [runStep, hs, ok_bind]
          rfl) hi
      refine ⟨a', hrun, ?_⟩
      rwa [Nat.add_mul, Nat.one_mul]
  unfold fullRun
  rw [ha, ok_bind]
  refine addCells_ok (runCell_injective half is) _ (fun v k hv => ?_) hsums
  have hsum := Int.natAbs_add_le v[8 * half.val + is.val + 2 * k.val] a[k.val]
  have hcell : v[8 * half.val + is.val + 2 * k.val].natAbs ≤ B := hv
  have hacc := hbound k.val k.isLt
  refine ⟨v[8 * half.val + is.val + 2 * k.val] + a[k.val], ?_, by omega⟩
  simp only [addRun]
  rw [int32_of_natAbs (by omega), ok_bind]
  rfl

private theorem partialRun_ok (w : Vector UInt8 210) {xq : Q8Block F} (hxq : xq.Bounded) (n : Nat)
    (half is : Fin 2) {B : Nat} (hB : B + 65024 < 2 ^ 31) {sums : Vector Int 16}
    (hsums : CellBound B sums) :
    ∃ sums', partialRun w xq n half is sums = .ok sums' ∧ CellBound (B + 65024) sums' := by
  refine foldlM_finRange_ok (fun i s => CellBound (B + i * 4064) s) (by simpa using hsums)
    fun (i : Fin 16) s hi => ?_
  rw [Nat.add_mul, Nat.one_mul, ← Nat.add_assoc]
  refine addCells_ok (runCell_injective half is) _ (fun v k hv => ?_) hi
  obtain ⟨r, hr, hr'⟩ := @macBelow_ok n (128 * half + (16 * is + i) + 32 * k) _ _ _ (B + i * 4064) 32 127
    hv (natAbs_q6kCode w half k ⟨16 * is + i, by omega⟩)
    (hxq.codes (128 * half.val + (16 * is.val + i.val) + 32 * k.val) (by omega)) (by omega)
  refine ⟨r, ?_, hr'⟩
  simp only [runCell] at hr
  simp only [partialRunStep, hr, ok_bind]
  rfl

private theorem q6kStep_ok (w : Vector UInt8 210) {xq : Q8Block F} (hxq : xq.Bounded) (n : Nat)
    (half : Fin 2) {B : Nat} (hB : B + 65024 < 2 ^ 31) {sums : Vector Int 16} (hsums : CellBound B sums)
    (is : Fin 2) : ∃ sums', q6kStep w xq n half sums is = .ok sums' ∧ CellBound (B + 65024) sums' := by
  unfold q6kStep
  split
  next => exact fullRun_ok w hxq half is hB hsums
  next => exact partialRun_ok w hxq n half is hB hsums

end

theorem dotQ4kQ8Block_ok (w : Vector UInt8 144) {xq : Q8Block F} (hxq : xq.Bounded) (n : Nat) :
    ∃ v, dotQ4kQ8Block w xq n = .ok v := by
  have hzero : AccBound 0 (0, 0) := ⟨Nat.zero_le _, Nat.zero_le _⟩
  obtain ⟨accs, hrun, -⟩ := foldlM_finRange_ok AccBound hzero fun half _ haccs =>
    q4kStep_ok w hxq n half.isLt haccs half
  unfold dotQ4kQ8Block
  simp only [hrun, ok_bind]
  exact ⟨_, rfl⟩

theorem dotQ6kQ8Block_ok (w : Vector UInt8 210) {xq : Q8Block F} (hxq : xq.Bounded) (n : Nat) :
    ∃ v, dotQ6kQ8Block w xq n = .ok v := by
  have hzero : CellBound (0 * 130048) (Vector.replicate 16 (0 : Int)) := by
    intro j hj
    simp
  obtain ⟨sums, hrun, hbound⟩ := foldlM_finRange_ok (fun half s => CellBound (half * 130048) s) hzero
    fun (half : Fin 2) s hs => by
      obtain ⟨s', hrun, hs'⟩ := foldlM_finRange_ok
        (fun is t => CellBound (half * 130048 + is * 65024) t) (by simpa using hs)
        fun (is : Fin 2) t ht => by
          obtain ⟨t', hstep, ht'⟩ := q6kStep_ok w hxq n half (by omega) ht is
          refine ⟨t', hstep, ?_⟩
          rwa [Nat.add_mul, Nat.one_mul, ← Nat.add_assoc]
      refine ⟨s', hrun, ?_⟩
      rw [Nat.add_mul]
      exact hs'
  obtain ⟨acc, hacc, -⟩ := foldlM_finRange_ok (s := (0 : Int))
    (fun j acc => acc.natAbs ≤ j * (128 * 260096)) (by simp)
    fun (j : Fin 16) acc hj => by
      have hscale : (q6kScale w j).natAbs ≤ 128 := by
        have h1 := Int8.toInt_lt w[192 + j.val].toInt8
        have h2 := Int8.le_toInt w[192 + j.val].toInt8
        unfold q6kScale
        omega
      obtain ⟨r, hr, hr'⟩ := mac_ok (j * (128 * 260096)) 128 260096 hj hscale
        (hbound j.val j.isLt) (by omega)
      exact ⟨r, hr, by omega⟩
  unfold dotQ6kQ8Block
  simp only [hrun, hacc, ok_bind]
  exact ⟨_, rfl⟩

end VitniTensor
