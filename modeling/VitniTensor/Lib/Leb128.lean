import VitniTensor.Lib.Codec
import Mathlib.Tactic.Ring

/-!
# LEB128

A natural number in bytes of seven bits each, the lowest first. All bytes but the last have their
high bit set, so a word shows where it ends.
-/

namespace Leb128

/-- The shortest word of `n`. -/
def encode (n : Nat) : List UInt8 :=
  if n < 128 then [UInt8.ofNat n] else UInt8.ofNat (n % 128 + 128) :: encode (n / 128)
termination_by n
decreasing_by omega

/-- Reads a word: its value, and what stands behind it. -/
def decode : List UInt8 → Option (Nat × List UInt8)
  | [] => none
  | b :: bytes =>
    if b.toNat < 128 then some (b.toNat, bytes)
    else (decode bytes).map fun (high, rest) => (b.toNat % 128 + 128 * high, rest)

/-- The last byte, and only it, has its high bit clear. -/
structure Word (init : List UInt8) (last : UInt8) : Prop where
  continued : ∀ b ∈ init, 128 ≤ b.toNat
  ends : last.toNat < 128

theorem encode_of_lt {n : Nat} (h : n < 128) : encode n = [UInt8.ofNat n] := by
  rw [encode, if_pos h]

theorem encode_of_ge {n : Nat} (h : 128 ≤ n) : encode n = UInt8.ofNat (n % 128 + 128) :: encode (n / 128) := by
  rw [encode, if_neg (Nat.not_lt.mpr h)]

private theorem toNat_low {n : Nat} (h : n < 128) : (UInt8.ofNat n).toNat = n := by
  rw [UInt8.toNat_ofNat']
  omega

private theorem toNat_continued (n : Nat) : (UInt8.ofNat (n % 128 + 128)).toNat = n % 128 + 128 := by
  rw [UInt8.toNat_ofNat']
  omega

/-- What is written is a word, and its last byte is zero for `0` only. -/
theorem word_encode (n : Nat) : ∃ init last, encode n = init ++ [last] ∧ Word init last ∧ (last = 0 → n = 0) := by
  induction n using encode.induct with
  | case1 n small =>
    have hlow := toNat_low small
    refine ⟨[], UInt8.ofNat n, encode_of_lt small, ⟨by simp, by omega⟩, fun hzero => ?_⟩
    rw [← hlow, hzero]
    rfl
  | case2 n large ih =>
    obtain ⟨init, last, hsplit, hword, hlast⟩ := ih
    have hbyte := toNat_continued n
    refine ⟨UInt8.ofNat (n % 128 + 128) :: init, last, ?_, ⟨fun b hb => ?_, hword.ends⟩, fun hzero => ?_⟩
    · rw [encode_of_ge (Nat.not_lt.mp large), hsplit, List.cons_append]
    · rcases List.mem_cons.mp hb with rfl | hin
      · omega
      · exact hword.continued b hin
    · -- a last byte of zero would have left a quotient of zero
      have hquotient := hlast hzero
      omega

theorem length_encode_pos (n : Nat) : 0 < (encode n).length := by
  obtain ⟨init, last, hsplit, -⟩ := word_encode n
  rw [hsplit, List.length_append, List.length_singleton]
  omega

/-- `k` bytes hold `7 * k` bits. -/
theorem length_encode_le {n k : Nat} (hk : 0 < k) (h : n < 128 ^ k) : (encode n).length ≤ k := by
  induction k generalizing n with
  | zero => exact absurd hk (Nat.lt_irrefl 0)
  | succ k ih =>
    rcases Nat.lt_or_ge n 128 with small | large
    · rw [encode_of_lt small, List.length_singleton]
      omega
    · have hpow : 128 ^ (k + 1) = 128 * 128 ^ k := by ring
      have hpos : 0 < k := by
        rcases Nat.eq_zero_or_pos k with rfl | hpos
        · rw [Nat.zero_add, Nat.pow_one] at h
          omega
        · exact hpos
      rw [encode_of_ge large, List.length_cons]
      exact Nat.succ_le_succ (ih hpos (Nat.div_lt_of_lt_mul (hpow ▸ h)))

/-- What is written is read back, and the rest of the stream is left. -/
theorem decode_encode_append (n : Nat) (rest : List UInt8) : decode (encode n ++ rest) = some (n, rest) := by
  induction n using encode.induct with
  | case1 n small =>
    rw [encode_of_lt small, List.singleton_append, decode, toNat_low small, if_pos small]
  | case2 n large ih =>
    have hcontinued : ¬n % 128 + 128 < 128 := by omega
    rw [encode_of_ge (Nat.not_lt.mp large), List.cons_append, decode, toNat_continued, if_neg hcontinued, ih,
      Option.map_some, Option.some.injEq, Prod.mk.injEq]
    exact ⟨by omega, rfl⟩

theorem encode_readable : Codec.ReadableOn (fun _ => True) encode := by
  intro n m s t _ _ eq
  have hread := decode_encode_append n s
  rw [eq, decode_encode_append] at hread
  obtain ⟨rfl, rfl⟩ := Prod.mk.injEq .. ▸ Option.some.inj hread
  exact ⟨rfl, rfl⟩

/-- No word of a number begins another one. -/
theorem encode_inj_of_startsWith {n m : Nat} (h : encode n <+: encode m) : n = m := by
  obtain ⟨rest, eq⟩ := h
  exact (encode_readable n m rest [] trivial trivial (by rw [eq, List.append_nil])).1

end Leb128
