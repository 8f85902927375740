import VitniTensor.Ops.Argmax
import VitniTensor.Ops.Binary
import VitniTensor.Ops.RmsNorm
import VitniTensor.Ops.Rope
import VitniTensor.Ops.Softmax
import VitniTensor.Ops.Unary

/-!
# Which tensors make an operation panic

The constructors accept dims of any size as long as the product of the dims behind the first one
does not overflow; a dim of size 0 lets the others be huge. The row operations divide by the last dim,
the product of two matrices can be larger than both, and the rotation counts heads and positions.
-/

namespace VitniTensor

open Outcome

variable {F : Type} [F32 F]

/-! ### Tensors of the constructors -/

/-- `usize` dims, and a constructor that accepts them. -/
structure Tensor.Built (t : Tensor F) : Prop where
  usize : ∀ d ∈ t.shape.dims, d < wordSize
  built : (∃ data, data.length * 4 < 2 ^ 63 ∧ fromF32 data t.shape = .ok t) ∨ ∃ dtype, zeros t.shape dtype = .ok t

/-- What a tensor of the constructors holds, if it holds floats. -/
theorem Tensor.Built.floats {t : Tensor F} (h : t.Built) (hdtype : t.dtype = .f32) :
    ∃ xs, t.Is t.shape.dims xs ∧ xs.length * 4 < 2 ^ 63 ∧ xs.length = t.shape.dims.prod := by
  -- A tensor is built from floats or as zeros; either way its memory was allocated.
  have hcontents : ∃ xs, t.storage = .f32 xs ∧ t.device = .cpu ∧ xs.length * 4 < 2 ^ 63 := by
    rcases h.built with ⟨data, hmemory, hdata⟩ | ⟨dtype, hzeros⟩
    · obtain ⟨hstorage, -, -, hcpu⟩ := fromF32_eq_ok hdata
      exact ⟨data, hstorage, hcpu, hmemory⟩
    · obtain ⟨hstorage, htag, hcpu, hmemory⟩ := zeros_eq_ok hzeros
      obtain rfl : dtype = .f32 := htag.symm.trans hdtype
      have hbytes : DType.f32.bytesOf t.shape.numel = t.shape.numel * 4 := rfl
      refine ⟨List.replicate t.shape.numel F32.zero, hstorage, hcpu, ?_⟩
      rw [List.length_replicate]
      omega
  obtain ⟨xs, hdata, hcpu, hmemory⟩ := hcontents
  have his : t.Is t.shape.dims xs := ⟨rfl, hcpu, hdata⟩
  refine ⟨xs, his, hmemory, ?_⟩
  -- The saturated number of elements is the real one, since that many exist.
  have hcount := his.length
  rw [Shape.numel_eq_min] at hcount
  unfold wordSize at hcount
  omega

/-! ### Row operations -/

/-- Counting the rows divides by their width. -/
theorem rows_returns_iff {α : Type} {cells last : Nat} {f : Nat → Res α}
    (hf : 0 < last → (f (cells / last)).Returns) : ((div cells last : Res Nat) >>= f).Returns ↔ 0 < last := by
  constructor
  · intro hreturns
    apply Nat.pos_of_ne_zero
    rintro rfl
    exact not_returns_panic .divideByZero hreturns
  · intro hpos
    rw [div_of_pos hpos, ok_bind]
    exact hf hpos

section Rows

variable {init dims : List Nat} {last : Nat} {xs ws : List F} {t weight : Tensor F}

omit [F32 F] in
theorem isEmpty_concat : (init ++ [last]).isEmpty = false := by
  cases init <;> rfl

omit [F32 F] in
theorem getLast?_concat_iff : (init ++ [last]).getLast? ≠ some 0 ↔ 0 < last := by
  rw [List.getLast?_concat, ne_eq, Option.some.injEq]
  exact Nat.pos_iff_ne_zero.symm

/-- Past the checks of the argmax. -/
theorem Tensor.Is.argmax_eq (h : t.Is (init ++ [last]) xs) :
    t.argmaxLastDim = (div xs.length last >>= fun rows => argmaxRows xs last rows >>= fun out =>
      if rows = 1 then Shape.new [1] >>= fun shape => fromU32 out shape
      else Shape.new init >>= fun shape => fromU32 out shape) := by
  unfold argmaxLastDim
  rw [if_neg (not_not_intro h.dtype), isContiguous_eq, ok_bind]
  simp only [Bool.not_true, Bool.false_eq_true, if_false, h.data, h.dims, isEmpty_concat,
    List.getLastD_concat, List.dropLast_concat]

theorem Tensor.Is.argmax_returns (h : t.Is dims xs) : t.argmaxLastDim.Returns ↔ dims.getLast? ≠ some 0 := by
  rcases List.eq_nil_or_concat' dims with rfl | ⟨init, last, rfl⟩
  · have hscalar : t.argmaxLastDim = .error (.err (.invalidShape "argmax requires rank ≥ 1")) := by
      unfold argmaxLastDim
      rw [if_neg (not_not_intro h.dtype), isContiguous_eq, ok_bind]
      simp only [Bool.not_true, Bool.false_eq_true, if_false, h.data, h.dims, List.isEmpty_nil, if_true]
    rw [hscalar]
    simp
  · rw [getLast?_concat_iff, h.argmax_eq]
    apply rows_returns_iff
    intro hpos
    obtain ⟨out, hout, -⟩ := argmaxRows_ok hpos (Nat.div_mul_le_self xs.length last)
    have hstrides := t.rowMajor
    unfold Shape.contiguousStrides at hstrides
    rw [h.dims] at hstrides
    -- the strides of the shape without its last dim are no larger
    obtain ⟨strides, hinit⟩ := Shape.stridesOf_dropLast hpos hstrides
    rw [hout, ok_bind]
    split
    · exact @fromU32_returns F _ _ [1] rfl
    · unfold Shape.new
      split
      · exact returns_err _
      · exact fromU32_returns hinit

theorem Tensor.Is.softmax_returns (h : t.Is dims xs) : t.softmaxLastDim.Returns ↔ dims.getLast? ≠ some 0 := by
  -- A scalar is refused by an error, which is no panic.
  rcases List.eq_nil_or_concat' dims with rfl | ⟨init, last, rfl⟩
  · have hscalar : t.softmaxLastDim = .error (.err (.invalidShape "softmax requires rank ≥ 1")) := by
      unfold softmaxLastDim
      rw [if_neg (not_not_intro h.dtype), isContiguous_eq, ok_bind]
      simp only [Bool.not_true, Bool.false_eq_true, if_false, h.data, h.dims, List.isEmpty_nil, if_true]
    rw [hscalar]
    simp
  -- Otherwise the rows are counted by dividing by the last dimension.
  · rw [getLast?_concat_iff, softmaxLastDim_eq h.data (by rw [h.dims, List.getLast?_concat])]
    apply rows_returns_iff
    intro hpos
    obtain ⟨out, hout, -⟩ := softmaxRows_ok (Nat.div_mul_le_self xs.length last)
    rw [hout, ok_bind]
    exact fromF32_returns t.rowMajor

/-- Past the checks of the normalization. -/
theorem Tensor.Is.rmsNormSlice_eq (h : t.Is (init ++ [last]) xs) (hlength : ws.length = last) (eps : F) :
    rmsNormSlice t ws eps = (div xs.length last >>= fun rows => rmsRows xs ws eps last rows >>= fun out =>
      fromF32 out t.shape) := by
  unfold rmsNormSlice
  rw [if_neg (not_not_intro h.dtype), isContiguous_eq, ok_bind]
  simp only [Bool.not_true, Bool.false_eq_true, if_false, h.data, h.dims, isEmpty_concat, List.getLastD_concat, hlength,
    ne_eq, not_true_eq_false]

theorem Tensor.Is.rmsNorm_rows (h : t.Is (init ++ [last]) xs) (hw : weight.Is [last] ws) (hlength : ws.length = last)
    (eps : F) : t.rmsNorm weight eps = (div xs.length last >>= fun rows => rmsRows xs ws eps last rows >>= fun out =>
      fromF32 out t.shape) := by
  rw [← h.rmsNormSlice_eq hlength eps]
  unfold rmsNorm
  rw [if_neg (by rw [h.dtype, hw.dtype]; simp), isContiguous_eq, isContiguous_eq, ok_bind, ok_bind]
  simp only [Bool.not_true, Bool.or_self, Bool.false_eq_true, if_false, h.dims, hw.data, hw.dims, isEmpty_concat,
    List.getLastD_concat, ne_eq, not_true_eq_false]

/-- A weight that does not match is refused. -/
theorem Tensor.rmsNorm_mismatch (hdtype : t.dtype = .f32) (hweight : weight.dtype = .f32)
    (hdims : ∀ init last, t.shape.dims = init ++ [last] → weight.shape.dims ≠ [last]) (eps : F) :
    (t.rmsNorm weight eps).Returns := by
  unfold rmsNorm
  rw [if_neg (by rw [hdtype, hweight]; simp), isContiguous_eq, isContiguous_eq, ok_bind, ok_bind]
  rcases List.eq_nil_or_concat' t.shape.dims with hnil | ⟨init, last, hconcat⟩
  · simp only [Bool.not_true, Bool.or_self, Bool.false_eq_true, if_false, hnil, List.isEmpty_nil, if_true, returns_err]
  · simp only [Bool.not_true, Bool.or_self, Bool.false_eq_true, if_false, hconcat, isEmpty_concat, List.getLastD_concat,
      if_pos (hdims init last hconcat), returns_err]

theorem Tensor.Is.rmsNorm_returns (h : t.Is (init ++ [last]) xs) (hw : weight.Is [last] ws)
    (hlength : ws.length = last) (eps : F) : (t.rmsNorm weight eps).Returns ↔ 0 < last := by
  rw [h.rmsNorm_rows hw hlength]
  apply rows_returns_iff
  intro hpos
  obtain ⟨out, hout, -⟩ := rmsRows_ok eps (Nat.div_mul_le_self xs.length last) hlength
  rw [hout, ok_bind]
  exact fromF32_returns t.rowMajor

end Rows

/-! ### Products and elementwise operations -/

/-- The product and the scratch column are allocated whatever the matrices are. -/
theorem matmulFlat_fits {m k n : Nat} {a b : List F} (h : (matmulFlat a b m k n).Returns) :
    m * n * 4 < 2 ^ 63 ∧ k * 4 < 2 ^ 63 := by
  by_contra hlarge
  -- The product was computed unchecked: in a checked build an overflow panics.
  have hcells : m * n < wordSize := by
    by_contra hoverflow
    exact h .overflow (by unfold matmulFlat word; rw [if_neg hoverflow]; rfl)
  unfold matmulFlat at h
  rw [word_of_lt hcells, ok_bind] at h
  -- Which of the two buffers does not fit.
  by_cases hproduct : m * n * 4 < 2 ^ 63
  · have hcol : ¬k * 4 < 2 ^ 63 := fun hcol => hlarge ⟨hproduct, hcol⟩
    unfold zeroVec at h
    rw [if_pos hproduct, ok_bind, if_neg hcol] at h
    exact not_returns_panic _ h
  · unfold zeroVec at h
    rw [if_neg hproduct] at h
    exact not_returns_panic _ h

theorem Tensor.Is.matmul_returns {m k n : Nat} {a b : List F} {x y : Tensor F} (hx : x.Is [m, k] a) (hy : y.Is [k, n] b)
    (ha : a.length = m * k) (hb : b.length = k * n) (hn : n < wordSize) :
    (x.matmul y).Returns ↔ m * n * 4 < 2 ^ 63 ∧ k * 4 < 2 ^ 63 := by
  constructor
  · intro hreturns
    rw [hx.matmul_eq hy] at hreturns
    exact matmulFlat_fits hreturns.of_bind
  · rintro ⟨hmemory, hcol⟩
    obtain ⟨z, hz, -⟩ := hx.matmul_ok hy ha hb hmemory hcol hn
    rw [hz]
    exact returns_ok z

omit [F32 F] in
theorem Tensor.applyF32_returns (x y : Tensor F) (f : F → F → F) : (applyF32 x y f).Returns := by
  unfold applyF32
  split
  · exact returns_err _
  · rw [isContiguous_eq, isContiguous_eq, ok_bind, ok_bind]
    simp only [Bool.not_true, Bool.or_self, Bool.false_eq_true, if_false]
    split
    · exact fromF32_returns x.rowMajor
    · exact returns_err _

omit [F32 F] in
theorem Tensor.checkCompatible_returns (op : String) (x y : Tensor F) : (checkCompatible op x y).Returns := by
  unfold checkCompatible
  split
  · exact returns_err _
  · split
    · exact returns_err _
    · split
      · exact returns_err _
      · exact returns_ok ()

omit [F32 F] in
theorem Tensor.mapF32_returns (x : Tensor F) (op : String) (f : F → F) : (x.mapF32 op f).Returns := by
  unfold mapF32
  split
  · exact returns_err _
  · rw [isContiguous_eq, ok_bind]
    simp only [Bool.not_true, Bool.false_eq_true, if_false]
    split
    · exact fromF32_returns x.rowMajor
    · exact returns_err _

theorem Tensor.matmul_mismatch {x y : Tensor F}
    (hdims : ∀ m k n, x.shape.dims = [m, k] → y.shape.dims ≠ [k, n]) : (x.matmul y).Returns := by
  -- Every branch before the multiplication returns an error.
  unfold matmul
  split
  · exact returns_err _
  · split
    · exact returns_err _
    · split
      · exact returns_err _
      · next hrank =>
        obtain ⟨m, k, hx⟩ := List.length_eq_two.mp (not_not.mp (not_or.mp hrank).1)
        obtain ⟨kR, n, hy⟩ := List.length_eq_two.mp (not_not.mp (not_or.mp hrank).2)
        have hk : k ≠ kR := fun h => hdims m k n hx (h ▸ hy)
        have hindex : ∀ (dims : List Nat) i d, dims[i]? = some d → (index dims i : Res Nat) = .ok d :=
          fun dims i d => index_eq_ok.mpr
        rw [isContiguous_eq, isContiguous_eq, ok_bind, ok_bind]
        simp only [Bool.not_true, Bool.or_self, Bool.false_eq_true, if_false, hx, hy, hindex [m, k] 0 m rfl,
          hindex [m, k] 1 k rfl, hindex [kR, n] 0 kR rfl, hindex [kR, n] 1 n rfl, ok_bind, if_pos hk]
        exact returns_err _

/-! ### Rotation -/

namespace Rope

variable {xs : List F} {theta : F} {positionOffset seq nHeads headDim : Nat}

theorem pair_errorless (cosines sines : List F) (headOff i : Nat) (out : List F) :
    (pair xs cosines sines headOff i out).Errorless := by
  -- Each access either succeeds or panics; none returns an error.
  unfold pair
  apply Errorless.bind (errorless_index _ _)
  intro a _
  apply Errorless.bind (errorless_index _ _)
  intro b _
  apply Errorless.bind (errorless_index _ _)
  intro c _
  apply Errorless.bind (errorless_index _ _)
  intro s _
  apply Errorless.bind (errorless_store _ _ _)
  intro out _
  exact errorless_store _ _ _

theorem head_errorless (cosines sines : List F) (sIdx hIdx : Nat) (out : List F) :
    (head xs cosines sines nHeads headDim sIdx hIdx out).Errorless := by
  unfold head
  apply Errorless.bind (errorless_word _)
  intro headRow _
  apply Errorless.bind (errorless_word _)
  intro headOff _
  exact forFrom_errorless fun i out => pair_errorless _ _ _ i out

theorem tokens_errorless : (tokens xs theta positionOffset seq nHeads headDim).Errorless := by
  have hreserve : (reserve (headDim / 2)).Errorless := by
    unfold reserve
    split <;> simp
  unfold tokens
  apply Errorless.bind hreserve
  intro _ _
  apply forFrom_errorless
  intro s out
  unfold token
  apply Errorless.bind (errorless_word _)
  intro pos _
  exact forFrom_errorless fun h out => head_errorless _ _ s h out

/-- What the loops count fits in a word if they run to the end. -/
theorem tokens_fits (hoffset : positionOffset < wordSize) {out : List F}
    (h : tokens xs theta positionOffset seq nHeads headDim = .ok out) :
    headDim / 2 * 4 < 2 ^ 63 ∧ positionOffset + seq ≤ wordSize ∧ seq * nHeads ≤ wordSize := by
  unfold tokens at h
  obtain ⟨_, hreserve, hloop⟩ := bind_eq_ok.mp h
  have htable : headDim / 2 * 4 < 2 ^ 63 := by
    unfold reserve at hreserve
    split at hreserve
    next hfits => exact hfits
    next => cases hreserve
  refine ⟨htable, ?_⟩
  cases seq with
  | zero => exact ⟨Nat.le_of_lt hoffset, by rw [Nat.zero_mul]; exact Nat.zero_le _⟩
  | succ last =>
    -- the last token has the largest position and the last head the largest number
    obtain ⟨u, u', htoken⟩ := forFrom_each hloop (Nat.lt_succ_self last)
    unfold token at htoken
    obtain ⟨pos, hpos, hheads⟩ := bind_eq_ok.mp htoken
    have hposition := (word_eq_ok.mp hpos).1
    refine ⟨by omega, ?_⟩
    cases nHeads with
    | zero => exact Nat.zero_le _
    | succ lastHead =>
      obtain ⟨v, v', hhead⟩ := forFrom_each hheads (Nat.lt_succ_self lastHead)
      unfold head at hhead
      obtain ⟨headRow, hrow, -⟩ := bind_eq_ok.mp hhead
      have hnumber := (word_eq_ok.mp hrow).1
      rw [Nat.zero_add, Nat.zero_add] at hnumber
      rw [Nat.succ_mul]
      omega

end Rope

theorem Tensor.Is.rope_returns {seq nHeads headDim : Nat} {xs : List F} {t : Tensor F} (h : t.Is [seq, nHeads, headDim] xs)
    (hxs : xs.length = seq * nHeads * headDim) (hmemory : xs.length * 4 < 2 ^ 63) (heven : headDim % 2 = 0) (theta : F)
    {positionOffset : Nat} (hoffset : positionOffset < wordSize) :
    (t.rope theta positionOffset).Returns ↔
      headDim / 2 * 4 < 2 ^ 63 ∧ positionOffset + seq ≤ wordSize ∧ seq * nHeads ≤ wordSize := by
  rw [h.rope_eq heven]
  constructor
  · intro hreturns
    obtain ⟨out, hout⟩ := Rope.tokens_errorless.result hreturns.of_bind
    exact Rope.tokens_fits hoffset hout
  · rintro ⟨htable, hpositions, hheads⟩
    rw [Rope.tokens_eq (by omega) hxs (by unfold wordSize; omega) hheads hpositions htable, ok_bind]
    exact fromF32_returns t.rowMajor

theorem Tensor.rope_mismatch {t : Tensor F}
    (hdims : ∀ seq nHeads headDim, t.shape.dims = [seq, nHeads, headDim] → headDim % 2 ≠ 0) (theta : F)
    (positionOffset : Nat) : (t.rope theta positionOffset).Returns := by
  unfold rope
  -- An odd head dimension is refused like every other mismatch.
  split
  · exact returns_err _
  · rw [isContiguous_eq, ok_bind]
    simp only [Bool.not_true, Bool.false_eq_true, if_false]
    split
    · exact returns_err _
    · next hrank =>
      obtain ⟨seq, nHeads, headDim, hshape⟩ := List.length_eq_three.mp (not_not.mp hrank)
      have hindex : ∀ i d, [seq, nHeads, headDim][i]? = some d → (index [seq, nHeads, headDim] i : Res Nat) = .ok d :=
        fun i d => index_eq_ok.mpr
      simp only [hshape, hindex 0 seq rfl, hindex 1 nHeads rfl, hindex 2 headDim rfl, ok_bind,
        if_pos (hdims seq nHeads headDim hshape)]
      exact returns_err _

/-! ### All operations -/

/-- An operation with its arguments. -/
inductive TensorOp (F : Type) where
  | argmaxLastDim (t : Tensor F)
  | softmaxLastDim (t : Tensor F)
  | rmsNorm (x weight : Tensor F) (eps : F)
  | rope (t : Tensor F) (theta : F) (positionOffset : Nat)
  | matmul (lhs rhs : Tensor F)
  | add (lhs rhs : Tensor F)
  | mul (lhs rhs : Tensor F)
  | silu (t : Tensor F)

namespace TensorOp

def run : TensorOp F → Res (Tensor F)
  | argmaxLastDim t => t.argmaxLastDim
  | softmaxLastDim t => t.softmaxLastDim
  | rmsNorm x weight eps => x.rmsNorm weight eps
  | rope t theta positionOffset => t.rope theta positionOffset
  | matmul lhs rhs => lhs.matmul rhs
  | add lhs rhs => lhs.add rhs
  | mul lhs rhs => lhs.mul rhs
  | silu t => t.silu

/-- Tensors of the constructors, and a `usize` position. -/
def Built : TensorOp F → Prop
  | argmaxLastDim t | softmaxLastDim t | silu t => t.Built
  | rmsNorm x weight _ => x.Built ∧ weight.Built
  | rope t _ positionOffset => t.Built ∧ positionOffset < wordSize
  | matmul lhs rhs | add lhs rhs | mul lhs rhs => lhs.Built ∧ rhs.Built

/-- The inputs on which an operation panics: rows of width 0, a product or a scratch column too large
to allocate, and a rotation whose frequency table, last position or last head number is too large. -/
def Faulty : TensorOp F → Prop
  | argmaxLastDim t | softmaxLastDim t => t.dtype = .f32 ∧ t.shape.dims.getLast? = some 0
  | rmsNorm x weight _ => x.dtype = .f32 ∧ weight.dtype = .f32 ∧ x.shape.dims.getLast? = some 0 ∧ weight.shape.dims = [0]
  | rope t _ positionOffset => t.dtype = .f32 ∧ ∃ seq nHeads headDim, t.shape.dims = [seq, nHeads, headDim] ∧
      headDim % 2 = 0 ∧
      (2 ^ 63 ≤ headDim / 2 * 4 ∨ wordSize < positionOffset + seq ∨ wordSize < seq * nHeads)
  | matmul lhs rhs => lhs.dtype = .f32 ∧ rhs.dtype = .f32 ∧ ∃ m k n, lhs.shape.dims = [m, k] ∧ rhs.shape.dims = [k, n] ∧
      (2 ^ 63 ≤ m * n * 4 ∨ 2 ^ 63 ≤ k * 4)
  | add _ _ | mul _ _ | silu _ => False

theorem argmax_iff {t : Tensor F} (h : t.Built) : t.argmaxLastDim.Returns ↔ ¬(argmaxLastDim t).Faulty := by
  by_cases hdtype : t.dtype = .f32
  · obtain ⟨xs, his, -⟩ := h.floats hdtype
    rw [his.argmax_returns]
    exact not_congr (and_iff_right hdtype).symm
  · unfold Tensor.argmaxLastDim
    rw [if_pos hdtype]
    exact iff_of_true (returns_err _) fun hfaulty => hdtype hfaulty.1

theorem softmax_iff {t : Tensor F} (h : t.Built) : t.softmaxLastDim.Returns ↔ ¬(softmaxLastDim t).Faulty := by
  by_cases hdtype : t.dtype = .f32
  · obtain ⟨xs, his, -⟩ := h.floats hdtype
    rw [his.softmax_returns]
    exact not_congr (and_iff_right hdtype).symm
  · unfold Tensor.softmaxLastDim
    rw [if_pos hdtype]
    exact iff_of_true (returns_err _) fun hfaulty => hdtype hfaulty.1

theorem rmsNorm_iff {x weight : Tensor F} (eps : F) (hx : x.Built) (hw : weight.Built) :
    (x.rmsNorm weight eps).Returns ↔ ¬(rmsNorm x weight eps).Faulty := by
  by_cases hdtypes : x.dtype = .f32 ∧ weight.dtype = .f32
  -- Both are floats, and the weights match the last dimension: the division decides.
  · obtain ⟨hdtype, hweight⟩ := hdtypes
    by_cases hmatch : ∃ init last, x.shape.dims = init ++ [last] ∧ weight.shape.dims = [last]
    · obtain ⟨init, last, hdims, hlast⟩ := hmatch
      obtain ⟨xs, hxs, -⟩ := hx.floats hdtype
      obtain ⟨ws, hws, -, hlength⟩ := hw.floats hweight
      rw [hdims] at hxs
      rw [hlast] at hws hlength
      rw [hxs.rmsNorm_returns hws (hlength.trans List.prod_singleton)]
      constructor
      · rintro hpos ⟨-, -, -, hzero⟩
        rw [hlast] at hzero
        cases hzero
        exact absurd hpos (Nat.lt_irrefl 0)
      · intro hfaulty
        apply Nat.pos_of_ne_zero
        rintro rfl
        exact hfaulty ⟨hdtype, hweight, by rw [hdims, List.getLast?_concat], hlast⟩
    -- Anything else is refused by an error.
    · refine iff_of_true (Tensor.rmsNorm_mismatch hdtype hweight (fun init last hdims hlast =>
        hmatch ⟨init, last, hdims, hlast⟩) eps) ?_
      rintro ⟨-, -, hlast, hzero⟩
      obtain ⟨init, hdims⟩ := List.getLast?_eq_some_iff.mp hlast
      exact hmatch ⟨init, 0, hdims, hzero⟩
  · unfold Tensor.rmsNorm
    rw [if_pos (not_and_or.mp hdtypes)]
    exact iff_of_true (returns_err _) fun hfaulty => hdtypes ⟨hfaulty.1, hfaulty.2.1⟩

theorem rope_iff {t : Tensor F} (theta : F) {positionOffset : Nat} (h : t.Built) (hoffset : positionOffset < wordSize) :
    (t.rope theta positionOffset).Returns ↔ ¬(rope t theta positionOffset).Faulty := by
  by_cases hdtype : t.dtype = .f32
  · by_cases heven : ∃ seq nHeads headDim, t.shape.dims = [seq, nHeads, headDim] ∧ headDim % 2 = 0
    · obtain ⟨seq, nHeads, headDim, hdims, heven⟩ := heven
      obtain ⟨xs, his, hmemory, hlength⟩ := h.floats hdtype
      rw [hdims] at his hlength
      rw [his.rope_returns (by rw [hlength]; simp [Nat.mul_assoc]) hmemory heven theta hoffset]
      -- Tables, positions and heads: the three sizes that may be too large.
      constructor
      · rintro ⟨htable, hpositions, hheads⟩ ⟨-, seq', nHeads', headDim', hdims', -, hlarge⟩
        rw [hdims] at hdims'
        cases hdims'
        omega
      · intro hfaulty
        by_contra hlarge
        exact hfaulty ⟨hdtype, seq, nHeads, headDim, hdims, heven, by omega⟩
    -- Shapes that do not match are refused by an error.
    · refine iff_of_true (Tensor.rope_mismatch (fun seq nHeads headDim hdims hmod =>
        heven ⟨seq, nHeads, headDim, hdims, hmod⟩) theta positionOffset) ?_
      rintro ⟨-, seq, nHeads, headDim, hdims, hmod, -⟩
      exact heven ⟨seq, nHeads, headDim, hdims, hmod⟩
  · unfold Tensor.rope
    rw [if_pos hdtype]
    exact iff_of_true (returns_err _) fun hfaulty => hdtype hfaulty.1

theorem matmul_iff {x y : Tensor F} (hx : x.Built) (hy : y.Built) :
    (x.matmul y).Returns ↔ ¬(matmul x y).Faulty := by
  by_cases hdtypes : x.dtype = .f32 ∧ y.dtype = .f32
  · obtain ⟨hdtype, hdtype'⟩ := hdtypes
    by_cases hmatch : ∃ m k n, x.shape.dims = [m, k] ∧ y.shape.dims = [k, n]
    · obtain ⟨m, k, n, hm, hn⟩ := hmatch
      obtain ⟨a, ha, -, hlength⟩ := hx.floats hdtype
      obtain ⟨b, hb, -, hlength'⟩ := hy.floats hdtype'
      have husize : n < wordSize := hy.usize n (by rw [hn]; simp)
      rw [hm] at ha hlength
      rw [hn] at hb hlength'
      -- The product and the column: the two buffers that may be too large.
      rw [ha.matmul_returns hb (by rw [hlength]; simp) (by rw [hlength']; simp) husize]
      constructor
      · rintro ⟨hproduct, hcol⟩ ⟨-, -, m', k', n', hm', hn', hlarge⟩
        rw [hm] at hm'
        rw [hn] at hn'
        cases hm'
        cases hn'
        omega
      · intro hfaulty
        by_contra hlarge
        exact hfaulty ⟨hdtype, hdtype', m, k, n, hm, hn, by omega⟩
    -- A mismatch is refused by an error, whatever the sizes.
    · refine iff_of_true (Tensor.matmul_mismatch fun m k n hm hn => hmatch ⟨m, k, n, hm, hn⟩) ?_
      rintro ⟨-, -, m, k, n, hm, hn, -⟩
      exact hmatch ⟨m, k, n, hm, hn⟩
  · refine iff_of_true ?_ fun hfaulty => hdtypes ⟨hfaulty.1, hfaulty.2.1⟩
    unfold Tensor.matmul
    rw [if_pos (not_and_or.mp hdtypes)]
    split
    · exact returns_err _
    · exact returns_err _

/-- Every operation returns `Ok` or `Err`, except on the faulty inputs. -/
theorem returns_iff_not_faulty (op : TensorOp F) (h : op.Built) : op.run.Returns ↔ ¬op.Faulty := by
  cases op with
  | argmaxLastDim t => exact argmax_iff h
  | softmaxLastDim t => exact softmax_iff h
  | rmsNorm x weight eps => exact rmsNorm_iff eps h.1 h.2
  | rope t theta positionOffset => exact rope_iff theta h.1 h.2
  | matmul lhs rhs => exact matmul_iff h.1 h.2
  | add lhs rhs =>
    exact iff_of_true ((Tensor.checkCompatible_returns _ lhs rhs).bind fun _ _ => Tensor.applyF32_returns lhs rhs _) id
  | mul lhs rhs =>
    exact iff_of_true ((Tensor.checkCompatible_returns _ lhs rhs).bind fun _ _ => Tensor.applyF32_returns lhs rhs _) id
  | silu t => exact iff_of_true (Tensor.mapF32_returns t _ _) id

end TensorOp

/-! ### Accepted shapes that panic -/

/-- A tensor without elements. -/
def emptyTensor (dims strides : List Nat) (rank : dims.length ≤ maxRank)
    (rowMajor : Shape.contiguousStrides ⟨dims, rank⟩ = .ok strides) (none : Shape.numel ⟨dims, rank⟩ = 0) : Tensor Cost where
  storage := .f32 []
  shape := ⟨dims, rank⟩
  strides := strides
  offset := 0
  dtype := .f32
  device := .cpu
  rowMajor := rowMajor
  atStart := Tensor.offset_zero
  tagged := rfl
  filled := none.symm

theorem emptyTensor_built {dims strides : List Nat} {rank : dims.length ≤ maxRank}
    {rowMajor : Shape.contiguousStrides ⟨dims, rank⟩ = .ok strides} {none : Shape.numel ⟨dims, rank⟩ = 0}
    (husize : ∀ d ∈ dims, d < wordSize) : (emptyTensor dims strides rank rowMajor none).Built := by
  have his : (emptyTensor dims strides rank rowMajor none).Is dims [] := ⟨rfl, rfl, rfl⟩
  obtain ⟨z, hz, hisz⟩ := @Tensor.Is.fromF32_ok Cost dims [] [] _ his rfl
  rw [hisz.unique his] at hz
  exact ⟨husize, .inl ⟨[], by decide, hz⟩⟩

/-- More heads than a word counts, of size 0. -/
def hugeHeads : Tensor Cost :=
  emptyTensor [2 ^ 40, 2 ^ 40, 0] [0, 0, 1] (by decide) (by decide) (by decide)

theorem hugeHeads_not_counted : ¬(TensorOp.rope hugeHeads F32.one 0).run.Returns := by
  intro hreturns
  exact (TensorOp.returns_iff_not_faulty (.rope hugeHeads F32.one 0) ⟨emptyTensor_built (by decide), by decide⟩).mp hreturns
    ⟨rfl, 2 ^ 40, 2 ^ 40, 0, rfl, rfl, .inr (.inr (by decide))⟩

def noLogits : Tensor Cost :=
  emptyTensor [0] [1] (by decide) (by decide) (by decide)

def tallMatrix : Tensor Cost :=
  emptyTensor [2 ^ 40, 0] [0, 1] (by decide) (by decide) (by decide)

def wideMatrix : Tensor Cost :=
  emptyTensor [0, 2 ^ 40] [2 ^ 40, 1] (by decide) (by decide) (by decide)

/-- Rows of width 0 divide by zero, and two matrices without elements have a product with too many. -/
theorem accepted_panics :
    noLogits.Built ∧ tallMatrix.Built ∧ wideMatrix.Built ∧
      noLogits.argmaxLastDim = .error (.panic .divideByZero) ∧
      noLogits.softmaxLastDim = .error (.panic .divideByZero) ∧
      noLogits.rmsNorm noLogits F32.one = .error (.panic .divideByZero) ∧
      tallMatrix.matmul wideMatrix = .error (.panic .overflow) :=
  ⟨emptyTensor_built (by decide), emptyTensor_built (by decide), emptyTensor_built (by decide), rfl, rfl, rfl, rfl⟩

end VitniTensor
