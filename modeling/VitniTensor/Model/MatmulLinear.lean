import VitniTensor.Binary32
import VitniTensor.Model.TiedRows

/-!
# Matrix product and linear

Every entry of a matrix product is the canonical dot product of a row and a column. So the product
with a transposed weight is the F32 arm of the quantized linear on the bytes of the weight.
-/

namespace VitniTensor

open Outcome Fill Rows

variable {F : Type} [F32 F]

/-! ### Matrices in memory -/

/-- An F32 matrix whose cells fit in memory. -/
structure Tensor.IsMatrix (m k : Nat) (a : List F) (x : Tensor F) : Prop where
  is : x.Is [m, k] a
  memory : a.length * 4 < 2 ^ 63

namespace Tensor.IsMatrix

omit [F32 F]

variable {m k : Nat} {a : List F} {x : Tensor F}

/-- The count of its elements does not saturate. -/
theorem length (h : x.IsMatrix m k a) : a.length = m * k := by
  obtain ⟨⟨dims, rank⟩, hshape⟩ : ∃ s, x.shape = s := ⟨_, rfl⟩
  have hmemory := h.memory
  have hlength := h.is.length
  have hdims := h.is.dims
  rw [hshape] at hlength hdims
  dsimp only at hdims
  subst hdims
  simp only [Shape.numel, Shape.saturatingMul, List.foldl_cons, List.foldl_nil, Nat.one_mul] at hlength
  rcases Nat.eq_zero_or_pos k with rfl | hk
  · simpa using hlength
  · by_cases hm : m ≤ wordSize - 1
    · rw [Nat.min_eq_left hm] at hlength
      unfold wordSize at hlength
      omega
    · rw [Nat.min_eq_right (show wordSize - 1 ≤ m by omega)] at hlength
      have hle := Nat.le_mul_of_pos_right (wordSize - 1) hk
      unfold wordSize at hlength hle
      omega

/-- Its strides fit in a word. -/
theorem columns_lt (h : x.IsMatrix m k a) : k < wordSize := by
  have hmajor := x.rowMajor
  unfold Shape.contiguousStrides at hmajor
  rw [h.is.dims] at hmajor
  change (Shape.stridesOf [k] >>= fun rest => _) = _ at hmajor
  rw [Shape.stridesOf, ok_bind, index_of_lt (by decide : 0 < 1), ok_bind] at hmajor
  obtain ⟨stride, hword, -⟩ := bind_eq_ok.mp hmajor
  obtain ⟨hlt, -⟩ := word_eq_ok.mp hword
  simpa using hlt

end Tensor.IsMatrix

/-! ### The entries of a product -/

/-- Entry `(i, j)`, through the index map of the flat product. -/
theorem productEntry_eq (a b : List F) {k n i j : Nat} (hj : j < n) :
    productEntry a b k n (i * n + j) = dotValue (row k a i) (column b k n j) k := by
  unfold productEntry
  rw [Nat.mul_comm i n, Nat.mul_add_div (by omega), Nat.div_eq_of_lt hj, Nat.add_zero, Nat.mul_add_mod,
    Nat.mod_eq_of_lt hj]

section Product

variable {m k n : Nat} {a b : List F} {x y : Tensor F}

/-- What a product that returns had to allocate. -/
theorem matmul_memory (hx : x.IsMatrix m k a) (hy : y.IsMatrix k n b) {z : Tensor F} (h : x.matmul y = .ok z) :
    m * n * 4 < 2 ^ 63 ∧ k * 4 < 2 ^ 63 := by
  rw [hx.is.matmul_eq hy.is] at h
  obtain ⟨out, hflat, -⟩ := bind_eq_ok.mp h
  unfold matmulFlat at hflat
  obtain ⟨cells, hword, hflat⟩ := bind_eq_ok.mp hflat
  obtain ⟨zeros, hzeros, hflat⟩ := bind_eq_ok.mp hflat
  obtain ⟨col, hcol, -⟩ := bind_eq_ok.mp hflat
  obtain ⟨-, rfl⟩ := word_eq_ok.mp hword
  exact ⟨zeroVec_eq_ok hzeros, zeroVec_eq_ok hcol⟩

/-- The product returns where its output and the scratch column fit in memory, and then every entry
is the canonical dot product of its row and its column. -/
theorem matmul_entries (hx : x.IsMatrix m k a) (hy : y.IsMatrix k n b) :
    ((∃ z, x.matmul y = .ok z) ↔ m * n * 4 < 2 ^ 63 ∧ k * 4 < 2 ^ 63) ∧
      ∀ z, x.matmul y = .ok z → ∃ out, z.IsMatrix m n out ∧ ∀ i < m, ∀ j < n, ∃ v,
        out[i * n + j]? = some v ∧ canonicalDot (row k a i) (column b k n j) k = .ok v := by
  have hproduct : m * n * 4 < 2 ^ 63 → k * 4 < 2 ^ 63 →
      ∃ z, x.matmul y = .ok z ∧ z.Is [m, n] ((List.range (m * n)).map (productEntry a b k n)) :=
    fun hmemory hcol => hx.is.matmul_ok hy.is hx.length hy.length hmemory hcol hy.columns_lt
  refine ⟨⟨fun ⟨z, hz⟩ => matmul_memory hx hy hz, fun ⟨hmemory, hcol⟩ => ?_⟩, fun z hz => ?_⟩
  · obtain ⟨z, hz, -⟩ := hproduct hmemory hcol
    exact ⟨z, hz⟩
  · obtain ⟨hmemory, hcol⟩ := matmul_memory hx hy hz
    obtain ⟨z', hz', his⟩ := hproduct hmemory hcol
    cases hz.symm.trans hz'
    refine ⟨_, ⟨his, by rwa [List.length_map, List.length_range]⟩, fun i hi j hj => ?_⟩
    refine ⟨dotValue (row k a i) (column b k n j) k, ?_, ?_⟩
    · rw [List.getElem?_map, List.getElem?_range (entry_lt hi hj), Option.map_some, productEntry_eq a b hj]
    · apply canonicalDot_eq
      · rw [length_row hi hx.length]
      · rw [length_column]

end Product

/-! ### The F32 linear -/

/-- `matmul(x, transpose_2d(W))` as its cells. -/
def denseLinear (x w : Tensor F) (outFeat inFeat : Nat) : Res (List F) := do
  let wT ← DensePass.transpose2d w outFeat inFeat
  let y ← x.matmul wT
  DensePass.tensorAsF32 y

/-- On a weight whose cells are the floats of a tensor's bytes, both compute the products with the
rows of the weight. -/
theorem denseLinear_eq (build : Build) (regime : UInt8) {inFeat outFeat : Nat} {x w : Tensor F} {xs ws : List F}
    {t : QuantTensor} (hx : x.IsMatrix 1 inFeat xs) (hw : w.IsMatrix outFeat inFeat ws) (hout : outFeat * 4 < 2 ^ 63)
    (hdtype : t.dtype = .f32) (hbytes : f32View t.bytes t.aligned = .ok ws) :
    denseLinear x w outFeat inFeat = linearDispatch build xs t inFeat outFeat regime := by
  have hxs : xs.length = inFeat := hx.length.trans (Nat.one_mul inFeat)
  have hws := hw.length
  have hcells := hw.memory
  have hin := hx.memory
  rw [hws] at hcells
  rw [hxs] at hin
  obtain ⟨wT, hwT, hisT⟩ := DensePass.transpose2d_ok hw.is hws hcells (by unfold wordSize; omega)
  obtain ⟨z, hz, hisz⟩ := DensePass.matmul_transposed ⟨hcells, hout, hin⟩ hx.is hxs hisT hws
  obtain ⟨hlength, haligned, hview⟩ := f32View_inv hbytes
  rw [hws] at hlength
  have hzeros : (List.replicate outFeat (F32.zero : F)).length = outFeat := List.length_replicate
  have hdense : denseLinear x w outFeat inFeat = .ok (rowProducts xs ws inFeat outFeat) := by
    unfold denseLinear
    rw [hwT, ok_bind, hz, ok_bind, DensePass.tensorAsF32_ok hisz]
  rw [hdense]
  rw [linearDispatch_eq hout]
  unfold linearArms
  simp only [hdtype]
  rw [linearF32_eq hlength (by omega) haligned hxs hzeros, ← hview]

/-! ### One computation -/

/-- For all sizes. A product of matrices returns exactly where its output and one column fit in
memory, and its entries are canonical dot products. With a transposed weight it is the F32 arm of
the linear, in every build and regime. -/
theorem matmul_is_linear :
    (∀ (m k n : Nat) (a b : List F) (x y : Tensor F), x.IsMatrix m k a → y.IsMatrix k n b →
      ((∃ z, x.matmul y = .ok z) ↔ m * n * 4 < 2 ^ 63 ∧ k * 4 < 2 ^ 63) ∧
        ∀ z, x.matmul y = .ok z → ∃ out, z.IsMatrix m n out ∧ ∀ i < m, ∀ j < n, ∃ v,
          out[i * n + j]? = some v ∧ canonicalDot (row k a i) (column b k n j) k = .ok v) ∧
      ∀ (build : Build) (regime : UInt8) (inFeat outFeat : Nat) (x w : Tensor F) (xs ws : List F) (t : QuantTensor),
        x.IsMatrix 1 inFeat xs → w.IsMatrix outFeat inFeat ws → outFeat * 4 < 2 ^ 63 → t.dtype = .f32 →
        f32View t.bytes t.aligned = .ok ws →
        denseLinear x w outFeat inFeat = linearDispatch build xs t inFeat outFeat regime :=
  ⟨fun _ _ _ _ _ _ _ hx hy => matmul_entries hx hy,
    fun build regime _ _ _ _ _ _ _ hx hw hout hdtype hbytes => denseLinear_eq build regime hx hw hout hdtype hbytes⟩

/-- `1.0` and `2.0`. -/
def oneRow : Tensor Binary32 where
  storage := .f32 [⟨0x3F800000⟩, ⟨0x40000000⟩]
  shape := ⟨[1, 2], by decide⟩
  strides := [2, 1]
  offset := 0
  dtype := .f32
  device := .cpu
  rowMajor := by decide
  atStart := Tensor.offset_zero
  tagged := by decide
  filled := by decide

/-- Three rows of weights. -/
def threeRows : Tensor Binary32 where
  storage := .f32 [⟨0x3F800000⟩, ⟨0x40000000⟩, ⟨0xBF800000⟩, ⟨0x3F000000⟩, ⟨0⟩, ⟨0x40400000⟩]
  shape := ⟨[3, 2], by decide⟩
  strides := [2, 1]
  offset := 0
  dtype := .f32
  device := .cpu
  rowMajor := by decide
  atStart := Tensor.offset_zero
  tagged := by decide
  filled := by decide

/-- The same weights in a file. -/
def threeRowsBytes : List UInt8 :=
  [0, 0, 0x80, 0x3F, 0, 0, 0, 0x40, 0, 0, 0x80, 0xBF, 0, 0, 0, 0x3F, 0, 0, 0, 0, 0, 0, 0x40, 0x40]

theorem threeRows_linear : denseLinear oneRow threeRows 3 2 =
    linearDispatch .serial [⟨0x3F800000⟩, ⟨0x40000000⟩] ⟨[2, 3], .f32, threeRowsBytes, true⟩ 2 3 2 :=
  (matmul_is_linear (F := Binary32)).2 .serial 2 2 3 oneRow threeRows _
    [⟨0x3F800000⟩, ⟨0x40000000⟩, ⟨0xBF800000⟩, ⟨0x3F000000⟩, ⟨0⟩, ⟨0x40400000⟩] _
    ⟨⟨rfl, rfl, rfl⟩, by decide⟩ ⟨⟨rfl, rfl, rfl⟩, by decide⟩ (by decide) rfl rfl

end VitniTensor
