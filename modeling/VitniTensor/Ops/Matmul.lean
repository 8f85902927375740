import VitniTensor.Lib.Fill
import VitniTensor.Lib.Rows
import VitniTensor.Quant.Reduce
import VitniTensor.Tensor.Basic

/-!
# Matrix multiplication

Rank-2 tensors only. Every entry of the product is one canonical dot product.
-/

namespace VitniTensor

open Outcome Fill Rows

variable {F : Type} [F32 F]

/-- Column `j` of the `k × n` matrix `b`, gathered. A single column is copied. -/
def gatherColumn (b : List F) (k n j : Nat) : Res (List F) :=
  if n = 1 then slice b 0 k else collectRange k fun kk => index b (kk * n + j)

/-- Column `j` of the product, written to `out`. -/
def matmulColumn (a b : List F) (m k n j : Nat) (out : List F) : Res (List F) :=
  if k = 0 then forRange m (fun i out => store out (i * n + j) F32.zero) out
  else do
    let col ← gatherColumn b k n j
    forRange m (fun i out => do
      let row ← slice a (i * k) (i * k + k)
      let v ← canonicalDot row col k
      store out (i * n + j) v) out

/-- `a @ b`, flat. The scratch column is allocated before the loop, whatever the loop does. -/
def matmulFlat (a b : List F) (m k n : Nat) : Res (List F) := do
  let cells ← word (m * n)
  let out ← zeroVec cells
  let _col : List F ← zeroVec k
  forRange n (matmulColumn a b m k n) out

namespace Tensor

def matmul (lhs rhs : Tensor F) : Res (Tensor F) :=
  if lhs.device ≠ rhs.device then .error (.err (.deviceMismatch "matmul"))
  else if lhs.dtype ≠ .f32 ∨ rhs.dtype ≠ .f32 then
    .error (.err (.notImplemented "matmul" "F32 only"))
  else if lhs.shape.dims.length ≠ 2 ∨ rhs.shape.dims.length ≠ 2 then
    .error (.err (.notImplemented "matmul" "rank-2 inputs only"))
  else do
    let left ← lhs.isContiguous
    let right ← rhs.isContiguous
    if !left || !right then
      .error (.err (.notImplemented "matmul" "a contiguous layout is required"))
    else do
      let m ← index lhs.shape.dims 0
      let k ← index lhs.shape.dims 1
      let kR ← index rhs.shape.dims 0
      let n ← index rhs.shape.dims 1
      if k ≠ kR then .error (.err (.shapeMismatch "lhs cols == rhs rows" "k mismatch"))
      else
        match lhs.storage, rhs.storage with
        | .f32 a, .f32 b => do
          let out ← matmulFlat a b m k n
          let shape ← Shape.new [m, n]
          fromF32 out shape
        | _, _ => .error (.err (.notImplemented "matmul" "CPU-only"))

theorem matmul_dims {lhs rhs z : Tensor F} {m k k' n : Nat} (hlhs : lhs.shape.dims = [m, k])
    (hrhs : rhs.shape.dims = [k', n]) (h : lhs.matmul rhs = .ok z) : z.shape.dims = [m, n] := by
  unfold matmul at h
  split at h
  next => cases h
  next =>
    split at h
    next => cases h
    next =>
      split at h
      next => cases h
      next =>
        rw [isContiguous_eq, isContiguous_eq, ok_bind, ok_bind, hlhs, hrhs] at h
        change (if k ≠ k' then _ else _ : Res (Tensor F)) = _ at h
        split at h
        next => cases h
        next =>
          split at h
          next =>
            obtain ⟨out, -, h⟩ := bind_eq_ok.mp h
            obtain ⟨shape, hshape, h⟩ := bind_eq_ok.mp h
            cases hshape
            rw [fromF32_shape h]
          next => cases h

end Tensor

/-! ### The entries of a product -/

/-- Column `j` of a `k × n` matrix. -/
def column (b : List F) (k n j : Nat) : List F :=
  (List.range k).map fun kk => b.getD (kk * n + j) F32.zero

@[simp] theorem length_column (b : List F) (k n j : Nat) : (column b k n j).length = k := by
  unfold column
  rw [List.length_map, List.length_range]

/-- Entry `j` of row `i` of a matrix with `n` columns. -/
theorem entry_lt {m n i j : Nat} (hi : i < m) (hj : j < n) : i * n + j < m * n := by
  have := Nat.mul_le_mul_right n hi
  rw [Nat.succ_mul] at this
  omega

theorem index_getD {xs : List F} {i : Nat} (hi : i < xs.length) :
    (index xs i : Res F) = .ok (xs.getD i F32.zero) := by
  rw [index_of_lt hi, List.getD_eq_getElem?_getD, List.getElem?_eq_getElem hi, Option.getD_some]

theorem gatherColumn_eq {b : List F} {k n j : Nat} (hb : b.length = k * n) (hj : j < n) :
    gatherColumn b k n j = .ok (column b k n j) := by
  unfold gatherColumn column
  split
  next hone =>
    subst hone
    obtain rfl : j = 0 := by omega
    rw [slice_of_le (Nat.zero_le k) (by omega), List.drop_zero, Nat.sub_zero]
    congr 1
    refine List.ext_getElem? fun i => ?_
    rw [List.getElem?_take, List.getElem?_map]
    by_cases hi : i < k
    · rw [if_pos hi, List.getElem?_range hi, Option.map_some, Nat.mul_one, Nat.add_zero,
        List.getD_eq_getElem?_getD, List.getElem?_eq_getElem (by omega), Option.getD_some]
    · rw [if_neg hi, List.getElem?_eq_none (by rw [List.length_range]; omega), Option.map_none]
  next hmany =>
    exact collectRange_eq fun kk hkk => index_getD (by rw [hb]; exact entry_lt hkk hj)

/-- Entry `c` of the flat product. -/
def productEntry (a b : List F) (k n c : Nat) : F :=
  dotValue (row k a (c / n)) (column b k n (c % n)) k

private theorem matmulColumn_eq {a b : List F} {m k n j : Nat} (ha : a.length = m * k)
    (hb : b.length = k * n) (hj : j < n) {out : List F} (hout : out.length = m * n) :
    matmulColumn a b m k n j out =
      .ok (fill (productEntry a b k n) ((List.range m).map fun i => i * n + j) out) := by
  have hentry : ∀ i, productEntry a b k n (i * n + j) = dotValue (row k a i) (column b k n j) k := by
    intro i
    unfold productEntry
    have hdiv : (i * n + j) / n = i := by
      rw [Nat.mul_comm, Nat.mul_add_div (by omega), Nat.div_eq_of_lt hj, Nat.add_zero]
    have hmod : (i * n + j) % n = j := by
      rw [Nat.add_comm, Nat.add_mul_mod_self_right, Nat.mod_eq_of_lt hj]
    rw [hdiv, hmod]
  have hcell : ∀ i < m, i * n + j < out.length := fun i hi => by rw [hout]; exact entry_lt hi hj
  rw [List.range_eq_range']
  unfold matmulColumn
  split
  next hzero =>
    subst hzero
    -- no products: the value is that of an empty dot product
    refine Eq.trans ?_ (forFrom_store_fill (f := fun _ => .ok F32.zero) fun i _ hi => ⟨?_, hcell i (by omega)⟩)
    · rfl
    · rw [hentry]
      rfl
  next hpos =>
    rw [gatherColumn_eq hb hj, ok_bind]
    refine Eq.trans (forFrom_congr (fun _ => True) trivial (fun i z _ hi _ => ?_) fun _ _ _ _ _ => trivial)
      (forFrom_store_fill (f := fun i => canonicalDot (row k a i) (column b k n j) k)
        fun i _ hi => ⟨?_, hcell i (by omega)⟩)
    · rw [slice_eq_row (show i < m by omega) ha, ok_bind]
    · rw [hentry, canonicalDot_eq (Nat.le_of_eq (length_row (show i < m by omega) ha).symm)
        (Nat.le_of_eq (length_column b k n j).symm)]

/-- Every entry of the product is the canonical dot product of a row and a column. -/
theorem matmulFlat_eq {a b : List F} {m k n : Nat} (ha : a.length = m * k) (hb : b.length = k * n)
    (hmemory : m * n * 4 < 2 ^ 63) (hcol : k * 4 < 2 ^ 63) :
    matmulFlat a b m k n = .ok ((List.range (m * n)).map (productEntry a b k n)) := by
  have hzeros : (zeroVec (m * n) : Res (List F)) = .ok (List.replicate (m * n) F32.zero) :=
    if_pos hmemory
  have hscratch : (zeroVec k : Res (List F)) = .ok (List.replicate k F32.zero) := if_pos hcol
  have hlength : (List.replicate (m * n) (F32.zero : F)).length = m * n := List.length_replicate
  have hloop : forRange n (matmulColumn a b m k n) (List.replicate (m * n) F32.zero) =
      .ok (fill (productEntry a b k n) ((List.range' 0 n).flatMap fun j =>
        (List.range m).map fun i => i * n + j) (List.replicate (m * n) F32.zero)) :=
    forFrom_fill fun j _ hj z hz => matmulColumn_eq ha hb (by omega) (by rw [hz, hlength])
  unfold matmulFlat
  rw [word_of_lt (by unfold wordSize; omega), ok_bind, hzeros, ok_bind, hscratch, ok_bind, hloop,
    fill_all fun c hc => ?_, hlength]
  rw [hlength] at hc
  have hn : 0 < n := Nat.pos_of_mul_pos_left (Nat.lt_of_le_of_lt (Nat.zero_le c) hc)
  refine List.mem_flatMap.mpr ⟨c % n, ?_, List.mem_map.mpr ⟨c / n, ?_, Nat.div_add_mod' c n⟩⟩
  · rw [List.mem_range'_1]
    exact ⟨Nat.zero_le _, by rw [Nat.zero_add]; exact Nat.mod_lt c hn⟩
  · exact List.mem_range.mpr (Nat.div_lt_of_lt_mul (by rw [Nat.mul_comm]; exact hc))

/-- Two matrices pass the checks. -/
theorem Tensor.Is.matmul_eq {m k n : Nat} {a b : List F} {x y : Tensor F} (hx : x.Is [m, k] a)
    (hy : y.Is [k, n] b) :
    x.matmul y = (matmulFlat a b m k n >>= fun out => Shape.new [m, n] >>= fun shape => fromF32 out shape) := by
  have hindex : ∀ i d, [m, k][i]? = some d → (index [m, k] i : Res Nat) = .ok d := fun i d => index_eq_ok.mpr
  have hindex' : ∀ i d, [k, n][i]? = some d → (index [k, n] i : Res Nat) = .ok d := fun i d => index_eq_ok.mpr
  unfold matmul
  rw [if_neg (not_not_intro (hx.cpu.trans hy.cpu.symm)), if_neg (by rw [hx.dtype, hy.dtype]; simp),
    if_neg (by rw [hx.dims, hy.dims]; simp), isContiguous_eq, isContiguous_eq, ok_bind, ok_bind]
  simp only [Bool.not_true, Bool.or_self, Bool.false_eq_true, if_false, hx.dims, hy.dims,
    hindex 0 m rfl, hindex 1 k rfl, hindex' 0 k rfl, hindex' 1 n rfl, ok_bind, ne_eq, not_true_eq_false,
    hx.data, hy.data]

theorem Tensor.Is.matmul_ok {m k n : Nat} {a b : List F} {x y : Tensor F} (hx : x.Is [m, k] a)
    (hy : y.Is [k, n] b) (ha : a.length = m * k) (hb : b.length = k * n) (hmemory : m * n * 4 < 2 ^ 63)
    (hcol : k * 4 < 2 ^ 63) (hn : n < wordSize) :
    ∃ z, x.matmul y = .ok z ∧ z.Is [m, n] ((List.range (m * n)).map (productEntry a b k n)) := by
  obtain ⟨z, hz, his⟩ := @matrix_ok F ((List.range (m * n)).map (productEntry a b k n)) m n
    (by rw [List.length_map, List.length_range]) (by unfold wordSize; omega) hn
  refine ⟨z, ?_, his⟩
  rw [hx.matmul_eq hy, matmulFlat_eq ha hb hmemory hcol, ok_bind, hz]

end VitniTensor
