import VitniTensor.Lib.Codec

/-!
# Little-endian words

A natural below `256 ^ n` as `n` bytes, least significant first, and back.
-/

namespace LittleEndian

/-- The `n` low bytes of `v`: `to_le_bytes`. -/
def toBytes : Nat → Nat → List UInt8
  | 0, _ => []
  | n + 1, v => UInt8.ofNat v :: toBytes n (v / 256)

/-- The value of a byte string: `from_le_bytes`. -/
def ofBytes : List UInt8 → Nat
  | [] => 0
  | b :: bs => b.toNat + 256 * ofBytes bs

@[simp] theorem length_toBytes (n v : Nat) : (toBytes n v).length = n := by
  induction n generalizing v with
  | zero => rfl
  | succ n ih => simp [toBytes, ih]

theorem ofBytes_lt (bs : List UInt8) : ofBytes bs < 256 ^ bs.length := by
  induction bs with
  | nil => simp [ofBytes]
  | cons b bs ih =>
    have byte := b.toNat_lt
    simp only [ofBytes, List.length_cons, Nat.pow_succ]
    omega

theorem ofBytes_toBytes {n v : Nat} (h : v < 256 ^ n) : ofBytes (toBytes n v) = v := by
  induction n generalizing v with
  | zero => simp_all [toBytes, ofBytes]
  | succ n ih =>
    have high : v / 256 < 256 ^ n := by
      rw [Nat.pow_succ] at h
      exact Nat.div_lt_of_lt_mul (by rwa [Nat.mul_comm])
    simp only [toBytes, ofBytes, ih high, UInt8.toNat_ofNat']
    omega

theorem toBytes_ofBytes (bs : List UInt8) : toBytes bs.length (ofBytes bs) = bs := by
  induction bs with
  | nil => rfl
  | cons b bs ih =>
    have byte := b.toNat_lt
    have low : UInt8.ofNat (b.toNat + 256 * ofBytes bs) = b := by
      apply UInt8.toNat_inj.mp
      rw [UInt8.toNat_ofNat']
      omega
    have high : (b.toNat + 256 * ofBytes bs) / 256 = ofBytes bs := by omega
    simp only [List.length_cons, toBytes, ofBytes, low, high, ih]

theorem toBytes_injOn {n v w : Nat} (hv : v < 256 ^ n) (hw : w < 256 ^ n)
    (eq : toBytes n v = toBytes n w) : v = w := by
  rw [← ofBytes_toBytes hv, ← ofBytes_toBytes hw, eq]

/-- Fixed-width words are readable. -/
theorem readable (n : Nat) : Codec.ReadableOn (fun v => v < 256 ^ n) (toBytes n) :=
  Codec.readableOn_of_length n (fun v _ => length_toBytes n v)
    (fun _ _ hv hw eq => toBytes_injOn hv hw eq)

end LittleEndian
