import VitniTensor.Cert.Builder
import VitniTensor.Error
import VitniTensor.Lib.Leb128

/-!
# Lengths of a receipt

`write_leb128` fills a buffer of ten cells. What it leaves there is the shortest LEB128 word of its
argument, which the buffer always holds, and no word begins another.
-/

namespace VitniTensor

open Outcome

/-! ### The word -/

private theorem leb128Loop_eq (cells : Nat) :
    ∀ (v : UInt64) (h : 0 < cells) (hv : v.toNat < 128 ^ cells), leb128Loop cells v h hv = Leb128.encode v.toNat := by
  induction cells with
  | zero => exact fun v h => absurd h (Nat.lt_irrefl 0)
  | succ cells ih =>
    intro v h hv
    have hlow := low7_toNat v
    unfold leb128Loop
    simp only
    split
    next more =>
      have hbyte := continued_toNat (v &&& 0x7f).toUInt8 (by omega)
      rw [ih, high_toNat, Leb128.encode_of_ge (high_ne_zero.mp more)]
      congr 1
      rw [← UInt8.toNat_inj, hbyte, hlow, UInt8.toNat_ofNat']
      omega
    next last =>
      have hsmall : v.toNat < 128 := Nat.lt_of_not_le (mt high_ne_zero.mpr last)
      rw [Leb128.encode_of_lt hsmall]
      congr 1
      rw [← UInt8.toNat_inj, hlow, UInt8.toNat_ofNat']
      omega

theorem leb128_eq (v : UInt64) : leb128 v = Leb128.encode v.toNat :=
  leb128Loop_eq 10 v _ _

theorem leb128_readable : Codec.ReadableOn (fun _ => True) leb128 := by
  intro v w s t _ _ eq
  rw [leb128_eq, leb128_eq] at eq
  obtain ⟨value, rest⟩ := Leb128.encode_readable _ _ s t trivial trivial eq
  exact ⟨UInt64.toNat_inj.mp value, rest⟩

theorem length_leb128_le (v : UInt64) : (leb128 v).length ≤ 10 := by
  rw [leb128_eq]
  exact Leb128.length_encode_le (by decide) (Nat.lt_of_lt_of_le v.toNat_lt (by decide))

/-! ### The buffer -/

/-- The loop of `write_leb128` on its buffer: what it leaves, and the `i` it ends with. -/
def fillLeb128 (buf : List UInt8) (i : Nat) (v : UInt64) : Res (List UInt8 × Nat) := do
  let byte := (v &&& 0x7f).toUInt8
  let v' := v >>> 7
  let buf ← store buf i (if v' ≠ 0 then byte ||| 0x80 else byte)
  if more : v' ≠ 0 then fillLeb128 buf (i + 1) v' else pure (buf, i + 1)
termination_by v.toNat
decreasing_by
  have hlarge := high_ne_zero.mp more
  rw [high_toNat]
  omega

/-- The first byte of the word, and the word of what is left. -/
theorem leb128_more {v : UInt64} (more : v >>> 7 ≠ 0) :
    leb128 v = ((v &&& 0x7f).toUInt8 ||| 0x80) :: leb128 (v >>> 7) := by
  have hlow := low7_toNat v
  have hbyte := continued_toNat (v &&& 0x7f).toUInt8 (by omega)
  rw [leb128_eq, leb128_eq, Leb128.encode_of_ge (high_ne_zero.mp more), high_toNat]
  congr 1
  rw [← UInt8.toNat_inj, hbyte, hlow, UInt8.toNat_ofNat']
  omega

theorem leb128_last {v : UInt64} (last : v >>> 7 = 0) : leb128 v = [(v &&& 0x7f).toUInt8] := by
  have hlow := low7_toNat v
  have hsmall : v.toNat < 128 := Nat.lt_of_not_le (mt high_ne_zero.mpr (not_not_intro last))
  rw [leb128_eq, Leb128.encode_of_lt hsmall]
  congr 1
  rw [← UInt8.toNat_inj, hlow, UInt8.toNat_ofNat']
  omega

/-- The loop stores the bytes of the word one after the other, if there are cells for them. -/
theorem fillLeb128_eq (v : UInt64) {done cells : List UInt8} (h : (leb128 v).length ≤ cells.length) :
    fillLeb128 (done ++ cells) done.length v =
      .ok (done ++ leb128 v ++ cells.drop (leb128 v).length, done.length + (leb128 v).length) := by
  induction hn : v.toNat using Nat.strongRecOn generalizing v done cells with
  | ind n ih =>
    subst hn
    rw [fillLeb128]
    by_cases more : v >>> 7 ≠ 0
    · rw [leb128_more more, List.length_cons] at h
      obtain ⟨cell, cells, rfl⟩ := List.exists_cons_of_length_pos (Nat.zero_lt_of_lt h)
      have hlarge := high_ne_zero.mp more
      have hfewer : (v >>> 7).toNat < v.toNat := by
        rw [high_toNat]
        omega
      rw [store_of_lt (by simp), ok_bind, dif_pos more, if_pos more, leb128_more more]
      have hstored : (done ++ cell :: cells).set done.length ((v &&& 0x7f).toUInt8 ||| 0x80) =
          (done ++ [(v &&& 0x7f).toUInt8 ||| 0x80]) ++ cells := by simp
      have hnext : done.length + 1 = (done ++ [(v &&& 0x7f).toUInt8 ||| 0x80]).length := by simp
      rw [hstored, hnext, ih _ hfewer _ (Nat.le_of_succ_le_succ h) rfl]
      simp
      omega
    · rw [not_not] at more
      rw [leb128_last more, List.length_singleton] at h
      obtain ⟨cell, cells, rfl⟩ := List.exists_cons_of_length_pos h
      rw [store_of_lt (by simp), ok_bind, dif_neg (not_not_intro more), if_neg (not_not_intro more), leb128_last more]
      simp
      rfl

/-- For every `v`: the loop ends within its ten cells and leaves the word there, of one to ten bytes of
which exactly the last has its high bit clear, and that one is zero for `0` only. A decoder reads `v`
back from any stream that begins with the word, up to its end, and no word begins another one. -/
theorem leb128_canonical (v : UInt64) :
    (∃ buf, fillLeb128 (List.replicate 10 0) 0 v = .ok (buf, (leb128 v).length) ∧
      (slice buf 0 (leb128 v).length : Res (List UInt8)) = .ok (leb128 v)) ∧
    0 < (leb128 v).length ∧ (leb128 v).length ≤ 10 ∧
    (∃ init last, leb128 v = init ++ [last] ∧ Leb128.Word init last ∧ (last = 0 → v = 0)) ∧
    (∀ rest, Leb128.decode (leb128 v ++ rest) = some (v.toNat, rest)) ∧
    ∀ w, leb128 v <+: leb128 w → v = w := by
  have hle := length_leb128_le v
  refine ⟨?_, ?_, hle, ?_, fun rest => ?_, fun w hprefix => ?_⟩
  · have hfill := @fillLeb128_eq v [] (List.replicate 10 0) (by rwa [List.length_replicate])
    rw [List.nil_append, List.nil_append, List.length_nil, Nat.zero_add] at hfill
    refine ⟨_, hfill, ?_⟩
    rw [slice_of_le (Nat.zero_le _) (by simp)]
    simp
  · rw [leb128_eq]
    exact Leb128.length_encode_pos v.toNat
  · obtain ⟨init, last, hsplit, hword, hlast⟩ := Leb128.word_encode v.toNat
    refine ⟨init, last, by rw [leb128_eq, hsplit], hword, fun hzero => ?_⟩
    exact UInt64.toNat_inj.mp (hlast hzero)
  · rw [leb128_eq]
    exact Leb128.decode_encode_append v.toNat rest
  · rw [leb128_eq, leb128_eq] at hprefix
    exact UInt64.toNat_inj.mp (Leb128.encode_inj_of_startsWith hprefix)

end VitniTensor
