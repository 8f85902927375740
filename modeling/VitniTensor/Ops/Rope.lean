import VitniTensor.Ops.Matmul

/-!
# Rotary position embedding

Pairs of neighbours `(2i, 2i+1)` of each head, rotated by an angle that depends on the position and
on `i`.
-/

namespace VitniTensor

open Outcome Fill

variable {F : Type} [F32 F]

namespace Rope

/-- `Vec::with_capacity(n)` of floats. -/
def reserve (n : Nat) : Res Unit :=
  if n * 4 < 2 ^ 63 then .ok () else .error (.panic .capacityOverflow)

/-- `1 / theta^(2i/dim)` -/
def frequency (theta : F) (headDim i : Nat) : F :=
  let exponent := F32.div (F32.ofInt (2 * i : Nat)) (F32.ofInt headDim)
  F32.div F32.one (F32.powf theta exponent)

def invFreq (theta : F) (headDim : Nat) : List F :=
  (List.range (headDim / 2)).map (frequency theta headDim)

/-- Cosines and sines for a position. -/
def cosCache (pos : Nat) (freqs : List F) : List F :=
  freqs.map fun freq => F32.cosf (F32.mul (F32.ofInt pos) freq)

def sinCache (pos : Nat) (freqs : List F) : List F :=
  freqs.map fun freq => F32.sinf (F32.mul (F32.ofInt pos) freq)

/-- `(a, b) -> (a*c - b*s, a*s + b*c)` -/
def turn (rot : F × F) (a b : F) : F × F :=
  (F32.sub (F32.mul a rot.1) (F32.mul b rot.2), F32.add (F32.mul a rot.2) (F32.mul b rot.1))

/-- Pair `i` of the head at `headOff`. -/
def pair (xs cosines sines : List F) (headOff i : Nat) (out : List F) : Res (List F) := do
  let a ← index xs (headOff + 2 * i)
  let b ← index xs (headOff + 2 * i + 1)
  let c ← index cosines i
  let s ← index sines i
  let out ← store out (headOff + 2 * i) (turn (c, s) a b).1
  store out (headOff + 2 * i + 1) (turn (c, s) a b).2

/-- One head; its row number overflows if the product of which it is the sum does. -/
def head (xs cosines sines : List F) (nHeads headDim sIdx hIdx : Nat) (out : List F) : Res (List F) := do
  let headRow ← word (sIdx * nHeads + hIdx)
  let headOff ← word (headRow * headDim)
  forRange (headDim / 2) (pair xs cosines sines headOff) out

def token (xs freqs : List F) (positionOffset nHeads headDim sIdx : Nat) (out : List F) : Res (List F) := do
  let pos ← word (positionOffset + sIdx)
  forRange nHeads (head xs (cosCache pos freqs) (sinCache pos freqs) nHeads headDim sIdx) out

/-- The loops over the tokens, the heads and the pairs. -/
def tokens (xs : List F) (theta : F) (positionOffset seq nHeads headDim : Nat) : Res (List F) := do
  reserve (headDim / 2)
  forRange seq (token xs (invFreq theta headDim) positionOffset nHeads headDim)
    (List.replicate xs.length F32.zero)

end Rope

namespace Tensor

def rope (t : Tensor F) (theta : F) (positionOffset : Nat) : Res (Tensor F) :=
  if t.dtype ≠ .f32 then .error (.err (.notImplemented "rope" "F32 only"))
  else do
    let contiguous ← t.isContiguous
    if !contiguous then .error (.err (.notImplemented "rope" "a contiguous layout is required"))
    else if t.shape.dims.length ≠ 3 then
      .error (.err (.shapeMismatch "[seq, n_heads, head_dim]" "non-rank-3 input"))
    else do
      let seq ← index t.shape.dims 0
      let nHeads ← index t.shape.dims 1
      let headDim ← index t.shape.dims 2
      if headDim % 2 ≠ 0 then .error (.err (.invalidShape "rope: head_dim must be even"))
      else
        match t.storage with
        | .f32 xs => do
          let out ← Rope.tokens xs theta positionOffset seq nHeads headDim
          fromF32 out t.shape
        | _ => .error (.err (.notImplemented "rope" "CPU-only"))

end Tensor

/-! ### The rotated cells -/

namespace Rope

/-- Cosine and sine of pair `i`. -/
def angle (theta : F) (pos headDim i : Nat) : F × F :=
  let val := F32.mul (F32.ofInt pos) (frequency theta headDim i)
  (F32.cosf val, F32.sinf val)

/-- Cell `c` where the pair `(2m, 2m+1)` is rotated by `rot m`. -/
def turnedCell (rot : Nat → F × F) (xs : List F) (c : Nat) : F :=
  if c % 2 = 0 then (turn (rot (c / 2)) (xs.getD c F32.zero) (xs.getD (c + 1) F32.zero)).1
  else (turn (rot (c / 2)) (xs.getD (c - 1) F32.zero) (xs.getD c F32.zero)).2

/-- All pairs of neighbours, rotated. -/
def interleaved (rot : Nat → F × F) (xs : List F) : List F :=
  (List.range xs.length).map (turnedCell rot xs)

@[simp] theorem length_interleaved (rot : Nat → F × F) (xs : List F) : (interleaved rot xs).length = xs.length := by
  unfold interleaved
  rw [List.length_map, List.length_range]

theorem turnedCell_even (rot : Nat → F × F) (xs : List F) (m : Nat) :
    turnedCell rot xs (2 * m) = (turn (rot m) (xs.getD (2 * m) F32.zero) (xs.getD (2 * m + 1) F32.zero)).1 := by
  have hdiv : 2 * m / 2 = m := by omega
  unfold turnedCell
  rw [if_pos (Nat.mul_mod_right 2 m), hdiv]

theorem turnedCell_odd (rot : Nat → F × F) (xs : List F) (m : Nat) :
    turnedCell rot xs (2 * m + 1) = (turn (rot m) (xs.getD (2 * m) F32.zero) (xs.getD (2 * m + 1) F32.zero)).2 := by
  have hdiv : (2 * m + 1) / 2 = m := by omega
  have hodd : ¬(2 * m + 1) % 2 = 0 := by omega
  unfold turnedCell
  rw [if_neg hodd, hdiv, Nat.add_sub_cancel]

/-- The angle of pair `m` of the tensor: its position by the token, its index by the head. -/
def tensorAngle (theta : F) (positionOffset nHeads headDim m : Nat) : F × F :=
  angle theta (positionOffset + 2 * m / (nHeads * headDim)) headDim (2 * m % headDim / 2)

/-! ### What the loops compute -/

section Loops

variable {xs out : List F} {theta : F} {positionOffset seq nHeads headDim s h i : Nat}

theorem index_caches (pos : Nat) (hi : i < headDim / 2) :
    (index (cosCache pos (invFreq theta headDim)) i : Res F) = .ok (angle theta pos headDim i).1 ∧
      (index (sinCache pos (invFreq theta headDim)) i : Res F) = .ok (angle theta pos headDim i).2 := by
  unfold cosCache sinCache invFreq
  constructor
  all_goals
    apply index_eq_ok.mpr
    rw [List.getElem?_map, List.getElem?_map, List.getElem?_range hi]
    rfl

/-- The cells of pair `i` of head `h` of token `s`. -/
theorem cells_lt (heven : headDim = 2 * (headDim / 2)) (hs : s < seq) (hh : h < nHeads) (hi : i < headDim / 2) :
    (s * nHeads + h) * headDim + 2 * i + 1 < seq * nHeads * headDim := by
  have hrow := entry_lt hs hh
  have hend := Nat.mul_le_mul_right headDim (Nat.succ_le_of_lt hrow)
  rw [Nat.succ_mul] at hend
  omega

omit [F32 F] in
/-- The flat index of a pair, and what the angle reads off it. -/
theorem pair_index (heven : headDim = 2 * (headDim / 2)) (hh : h < nHeads) (hi : i < headDim / 2) :
    (s * nHeads + h) * headDim + 2 * i = 2 * ((s * nHeads + h) * (headDim / 2) + i) ∧
      ((s * nHeads + h) * headDim + 2 * i) / (nHeads * headDim) = s ∧
      ((s * nHeads + h) * headDim + 2 * i) % headDim / 2 = i := by
  have hpos : 0 < headDim := by omega
  have hlast : h * headDim + 2 * i < nHeads * headDim := by
    have hend := Nat.mul_le_mul_right headDim (Nat.succ_le_of_lt hh)
    rw [Nat.succ_mul] at hend
    omega
  refine ⟨?_, ?_, ?_⟩
  · rw [Nat.mul_add, Nat.mul_left_comm, ← heven]
  · rw [Nat.add_mul, Nat.mul_assoc, Nat.add_assoc, Nat.mul_comm s, Nat.mul_add_div (by omega),
      Nat.div_eq_of_lt hlast, Nat.add_zero]
  · rw [Nat.mul_comm _ headDim, Nat.mul_add_mod, Nat.mod_eq_of_lt (by omega), Nat.mul_div_cancel_left _ (by decide)]

theorem pair_eq (heven : headDim = 2 * (headDim / 2)) (hxs : xs.length = seq * nHeads * headDim)
    (hout : out.length = xs.length) (hs : s < seq) (hh : h < nHeads) (hi : i < headDim / 2) :
    pair xs (cosCache (positionOffset + s) (invFreq theta headDim))
        (sinCache (positionOffset + s) (invFreq theta headDim)) ((s * nHeads + h) * headDim) i out =
      .ok (fill (turnedCell (tensorAngle theta positionOffset nHeads headDim) xs)
        [(s * nHeads + h) * headDim + 2 * i, (s * nHeads + h) * headDim + 2 * i + 1] out) := by
  have hlt := cells_lt heven hs hh hi
  rw [← hxs] at hlt
  obtain ⟨hflat, htoken, hpair⟩ := @pair_index nHeads headDim s h i heven hh hi
  obtain ⟨hcos, hsin⟩ := @index_caches F _ theta headDim i (positionOffset + s) hi
  have hangle : tensorAngle theta positionOffset nHeads headDim ((s * nHeads + h) * (headDim / 2) + i) =
      angle theta (positionOffset + s) headDim i := by
    unfold tensorAngle
    rw [← hflat, htoken, hpair]
  have hfirst := turnedCell_even (tensorAngle theta positionOffset nHeads headDim) xs
    ((s * nHeads + h) * (headDim / 2) + i)
  have hsecond := turnedCell_odd (tensorAngle theta positionOffset nHeads headDim) xs
    ((s * nHeads + h) * (headDim / 2) + i)
  rw [hangle, ← hflat] at hfirst hsecond
  unfold pair
  rw [index_getD (by omega), ok_bind, index_getD hlt, ok_bind, hcos, ok_bind, hsin, ok_bind,
    store_of_lt (by omega), ok_bind, store_of_lt (by rw [List.length_set]; omega), fill_cons, fill_cons, fill_nil,
    hfirst, hsecond]

/-- The cells of a head. -/
def headCells (headDim headRow : Nat) : List Nat :=
  (List.range' 0 (headDim / 2)).flatMap fun i => [headRow * headDim + 2 * i, headRow * headDim + 2 * i + 1]

theorem head_eq (heven : headDim = 2 * (headDim / 2)) (hxs : xs.length = seq * nHeads * headDim)
    (hmemory : xs.length < wordSize) (hrows : seq * nHeads ≤ wordSize) (hout : out.length = xs.length) (hs : s < seq)
    (hh : h < nHeads) :
    head xs (cosCache (positionOffset + s) (invFreq theta headDim)) (sinCache (positionOffset + s) (invFreq theta headDim))
        nHeads headDim s h out =
      .ok (fill (turnedCell (tensorAngle theta positionOffset nHeads headDim) xs)
        (headCells headDim (s * nHeads + h)) out) := by
  have hrow := entry_lt hs hh
  have hoffset := Nat.mul_le_mul_right headDim (Nat.le_of_lt hrow)
  unfold head headCells
  rw [word_of_lt (by omega), ok_bind, word_of_lt (by omega), ok_bind]
  apply forFrom_fill
  intro i _ hi z hz
  exact pair_eq heven hxs (hz.trans hout) hs hh (by omega)

theorem token_eq (heven : headDim = 2 * (headDim / 2)) (hxs : xs.length = seq * nHeads * headDim)
    (hmemory : xs.length < wordSize) (hrows : seq * nHeads ≤ wordSize) (hpos : positionOffset + seq ≤ wordSize)
    (hout : out.length = xs.length) (hs : s < seq) :
    token xs (invFreq theta headDim) positionOffset nHeads headDim s out =
      .ok (fill (turnedCell (tensorAngle theta positionOffset nHeads headDim) xs)
        ((List.range' 0 nHeads).flatMap fun h => headCells headDim (s * nHeads + h)) out) := by
  unfold token
  rw [word_of_lt (by omega), ok_bind]
  apply forFrom_fill
  intro h _ hh z hz
  exact head_eq heven hxs hmemory hrows (hz.trans hout) hs (by omega)

/-- Every cell belongs to a pair. -/
theorem mem_cells (heven : headDim = 2 * (headDim / 2)) {c : Nat} (hc : c < seq * nHeads * headDim) :
    c ∈ (List.range' 0 seq).flatMap fun s => (List.range' 0 nHeads).flatMap fun h =>
      headCells headDim (s * nHeads + h) := by
  have hdim : 0 < headDim := Nat.pos_of_mul_pos_left (Nat.lt_of_le_of_lt (Nat.zero_le c) hc)
  have hrow : c / headDim < seq * nHeads := Nat.div_lt_of_lt_mul (by rwa [Nat.mul_comm])
  have hheads : 0 < nHeads := Nat.pos_of_mul_pos_left (Nat.lt_of_le_of_lt (Nat.zero_le _) hrow)
  have htoken : c / headDim / nHeads < seq := Nat.div_lt_of_lt_mul (by rwa [Nat.mul_comm])
  have hmod := Nat.mod_lt c hdim
  have hsplit := Nat.div_add_mod' c headDim
  refine List.mem_flatMap.mpr ⟨c / headDim / nHeads, List.mem_range'_1.mpr ⟨Nat.zero_le _, by omega⟩, ?_⟩
  refine List.mem_flatMap.mpr ⟨c / headDim % nHeads, List.mem_range'_1.mpr
    ⟨Nat.zero_le _, by rw [Nat.zero_add]; exact Nat.mod_lt _ hheads⟩, ?_⟩
  rw [Nat.div_add_mod']
  refine List.mem_flatMap.mpr ⟨c % headDim / 2, List.mem_range'_1.mpr ⟨Nat.zero_le _, by omega⟩, ?_⟩
  rw [List.mem_cons, List.mem_singleton]
  omega

/-- The tensor operation rotates every pair of neighbours. -/
theorem tokens_eq (heven : headDim = 2 * (headDim / 2)) (hxs : xs.length = seq * nHeads * headDim)
    (hmemory : xs.length < wordSize) (hrows : seq * nHeads ≤ wordSize) (hpos : positionOffset + seq ≤ wordSize)
    (htable : headDim / 2 * 4 < 2 ^ 63) :
    tokens xs theta positionOffset seq nHeads headDim =
      .ok (interleaved (tensorAngle theta positionOffset nHeads headDim) xs) := by
  have hreserve : reserve (headDim / 2) = .ok () := if_pos htable
  have hzeros : (List.replicate xs.length (F32.zero : F)).length = xs.length := List.length_replicate
  have hloop : forRange seq (token xs (invFreq theta headDim) positionOffset nHeads headDim)
      (List.replicate xs.length F32.zero) = .ok (fill (turnedCell (tensorAngle theta positionOffset nHeads headDim) xs)
        ((List.range' 0 seq).flatMap fun s => (List.range' 0 nHeads).flatMap fun h => headCells headDim (s * nHeads + h))
        (List.replicate xs.length F32.zero)) := by
    apply forFrom_fill
    intro s _ hs z hz
    exact token_eq heven hxs hmemory hrows hpos (hz.trans hzeros) (by omega)
  unfold tokens
  rw [hreserve, ok_bind, hloop, fill_all, hzeros]
  · rfl
  · intro c hc
    rw [hzeros, hxs] at hc
    exact mem_cells heven hc

end Loops

end Rope

/-- What the operation does behind its checks. -/
theorem Tensor.Is.rope_eq {seq nHeads headDim : Nat} {xs : List F} {t : Tensor F} (h : t.Is [seq, nHeads, headDim] xs)
    (heven : headDim % 2 = 0) (theta : F) (positionOffset : Nat) :
    t.rope theta positionOffset =
      (Rope.tokens xs theta positionOffset seq nHeads headDim >>= fun out => fromF32 out t.shape) := by
  have hindex : ∀ i d, [seq, nHeads, headDim][i]? = some d → (index [seq, nHeads, headDim] i : Res Nat) = .ok d :=
    fun i d => index_eq_ok.mpr
  unfold rope
  rw [if_neg (not_not_intro h.dtype), isContiguous_eq, ok_bind]
  simp only [Bool.not_true, Bool.false_eq_true, if_false, h.dims, List.length_cons, List.length_nil, ne_eq,
    not_true_eq_false, hindex 0 seq rfl, hindex 1 nHeads rfl, hindex 2 headDim rfl, ok_bind, heven, h.data]

end VitniTensor
