import VitniTensor.Model.Forward
import VitniTensor.Model.Sizes

/-!
# One product, two ways

The F32 pass multiplies by a transposed weight tensor, the quantized pass reduces the decoded
rows of the weight one after the other. Both give, for every row of the weight, its canonical dot
product with the activations.
-/

namespace VitniTensor

open Outcome Fill Rows

variable {F : Type} [F32 F]

/-- The dot products of `x` with the rows of `w`. -/
def rowProducts (x w : List F) (inFeat outFeat : Nat) : List F :=
  (List.range outFeat).map fun o => dotValue x (row inFeat w o) inFeat

@[simp] theorem length_rowProducts (x w : List F) (inFeat outFeat : Nat) :
    (rowProducts x w inFeat outFeat).length = outFeat := by
  unfold rowProducts
  rw [List.length_map, List.length_range]

/-! ### The F32 way -/

namespace DensePass

section Tensors

omit [F32 F]

theorem tensorAsF32_ok {dims : List Nat} {xs : List F} {t : Tensor F} (h : t.Is dims xs) :
    tensorAsF32 t = .ok xs := by
  unfold tensorAsF32
  rw [h.data]

theorem matrix_ok {data : List F} {m n : Nat} (hdata : data.length = m * n) (hcells : m * n < wordSize)
    (hn : n < wordSize) : ∃ t, sliceToTensor data [m, n] = .ok t ∧ t.Is [m, n] data :=
  Tensor.matrix_ok hdata hcells hn

theorem vector_ok {data : List F} {n : Nat} (hdata : data.length = n) (hn : n < wordSize) :
    ∃ t, sliceToTensor data [n] = .ok t ∧ t.Is [n] data := by
  have hrank : [n].length ≤ maxRank := (by decide : 1 ≤ 6)
  have hnumel : Shape.numel ⟨[n], hrank⟩ = n := by
    simp only [Shape.numel, Shape.saturatingMul, List.foldl_cons, List.foldl_nil]
    omega
  obtain ⟨t, ht⟩ := @Tensor.fromF32_ok F data ⟨[n], hrank⟩ [1] (hdata.trans hnumel.symm) rfl
  obtain ⟨hstorage, hshape, -, hcpu⟩ := Tensor.fromF32_eq_ok ht
  exact ⟨t, ht, by rw [hshape], hcpu, hstorage⟩

end Tensors

/-- A matrix of `cols` columns, transposed. -/
def transposed (src : List F) (rows cols : Nat) : List F :=
  (List.range (rows * cols)).map fun c => src.getD (c % rows * cols + c / rows) F32.zero

/-- A column of the transposed matrix is a row of the matrix. -/
theorem column_transposed {src : List F} {rows cols j : Nat} (hsrc : src.length = rows * cols)
    (hj : j < rows) : column (transposed src rows cols) cols rows j = row cols src j := by
  refine List.ext_getElem? fun i => ?_
  unfold column
  rw [List.getElem?_map, getElem?_row]
  by_cases hi : i < cols
  · have hcell : i * rows + j < rows * cols := by rw [Nat.mul_comm rows]; exact entry_lt hi hj
    have hdiv : (i * rows + j) / rows = i := by
      rw [Nat.mul_comm, Nat.mul_add_div (by omega), Nat.div_eq_of_lt hj, Nat.add_zero]
    have hmod : (i * rows + j) % rows = j := by
      rw [Nat.add_comm, Nat.add_mul_mod_self_right, Nat.mod_eq_of_lt hj]
    have hentry : j * cols + i < src.length := by rw [hsrc]; exact entry_lt hj hi
    unfold transposed
    rw [if_pos hi, List.getElem?_range hi, Option.map_some, List.getD_eq_getElem?_getD,
      List.getElem?_map, List.getElem?_range hcell, Option.map_some, Option.getD_some, hdiv, hmod,
      List.getD_eq_getElem?_getD, List.getElem?_eq_getElem hentry, Option.getD_some]
  · rw [if_neg hi, List.getElem?_eq_none (by rw [List.length_range]; omega), Option.map_none]

/-- Cell `c * rows + r` gets entry `c` of row `r`. -/
private theorem transposeRow_eq {src : List F} {rows cols r : Nat} (hsrc : src.length = rows * cols)
    (hr : r < rows) {out : List F} (hout : out.length = rows * cols) :
    transposeRow src rows cols r out =
      .ok (fill (fun c => src.getD (c % rows * cols + c / rows) F32.zero)
        ((List.range' 0 cols).map fun c => c * rows + r) out) := by
  refine forFrom_store_fill fun c _ hc => ⟨?_, ?_⟩
  · have hdiv : (c * rows + r) / rows = c := by
      rw [Nat.mul_comm, Nat.mul_add_div (by omega), Nat.div_eq_of_lt hr, Nat.add_zero]
    have hmod : (c * rows + r) % rows = r := by
      rw [Nat.add_comm, Nat.add_mul_mod_self_right, Nat.mod_eq_of_lt hr]
    rw [hdiv, hmod]
    exact index_getD (by rw [hsrc]; exact entry_lt hr (by omega))
  · rw [hout, Nat.mul_comm rows]
    exact entry_lt (by omega) hr

theorem transposeFlat_eq {src : List F} {rows cols : Nat} (hsrc : src.length = rows * cols)
    (hmemory : rows * cols * 4 < 2 ^ 63) :
    transposeFlat src rows cols = .ok (transposed src rows cols) := by
  have hzeros : (zeroVec (rows * cols) : Res (List F)) = .ok (List.replicate (rows * cols) F32.zero) :=
    if_pos hmemory
  have hlength : (List.replicate (rows * cols) (F32.zero : F)).length = rows * cols :=
    List.length_replicate
  have hloop : forRange rows (transposeRow src rows cols) (List.replicate (rows * cols) F32.zero) =
      .ok (fill (fun c => src.getD (c % rows * cols + c / rows) F32.zero)
        ((List.range' 0 rows).flatMap fun r => (List.range' 0 cols).map fun c => c * rows + r)
        (List.replicate (rows * cols) F32.zero)) :=
    forFrom_fill fun r _ hr z hz => transposeRow_eq hsrc (by omega) (hz.trans hlength)
  unfold transposeFlat
  rw [word_of_lt (by unfold wordSize; omega), ok_bind, hzeros, ok_bind, hloop,
    fill_all fun c hc => ?_, hlength]
  · rfl
  · rw [hlength] at hc
    have hrows : 0 < rows := Nat.pos_of_mul_pos_right (Nat.lt_of_le_of_lt (Nat.zero_le c) hc)
    refine List.mem_flatMap.mpr ⟨c % rows, ?_, List.mem_map.mpr ⟨c / rows, ?_, Nat.div_add_mod' c rows⟩⟩
    · rw [List.mem_range'_1]
      exact ⟨Nat.zero_le _, by rw [Nat.zero_add]; exact Nat.mod_lt c hrows⟩
    · rw [List.mem_range'_1]
      exact ⟨Nat.zero_le _, by rw [Nat.zero_add]; exact Nat.div_lt_of_lt_mul hc⟩

theorem transpose2d_ok {w : List F} {rows cols : Nat} {t : Tensor F} (h : t.Is [rows, cols] w)
    (hw : w.length = rows * cols) (hmemory : rows * cols * 4 < 2 ^ 63) (hrows : rows < wordSize) :
    ∃ z, transpose2d t rows cols = .ok z ∧ z.Is [cols, rows] (transposed w rows cols) := by
  obtain ⟨z, hz, his⟩ := @matrix_ok F (transposed w rows cols) cols rows
    (by unfold transposed; rw [List.length_map, List.length_range, Nat.mul_comm])
    (by rw [Nat.mul_comm]; unfold wordSize; omega) hrows
  refine ⟨z, ?_, his⟩
  unfold transpose2d
  rw [tensorAsF32_ok h, ok_bind, transposeFlat_eq hw hmemory, ok_bind, hz]

/-- The sizes of a weight matrix in memory. -/
structure FitsMatrix (outDim inDim : Nat) : Prop where
  cells : outDim * inDim * 4 < 2 ^ 63
  outDim : outDim * 4 < 2 ^ 63
  inDim : inDim * 4 < 2 ^ 63

theorem matmul_transposed {x y : Tensor F} {xs w : List F} {outDim inDim : Nat}
    (hfits : FitsMatrix outDim inDim) (hx : x.Is [1, inDim] xs) (hxs : xs.length = inDim)
    (hy : y.Is [inDim, outDim] (transposed w outDim inDim)) (hw : w.length = outDim * inDim) :
    ∃ z, x.matmul y = .ok z ∧ z.Is [1, outDim] (rowProducts xs w inDim outDim) := by
  have hout := hfits.outDim
  obtain ⟨z, hz, his⟩ := hx.matmul_ok hy (by rw [hxs, Nat.one_mul])
    (by unfold transposed; rw [List.length_map, List.length_range, Nat.mul_comm])
    (by rw [Nat.one_mul]; exact hout) hfits.inDim (by unfold wordSize; omega)
  refine ⟨z, hz, ?_⟩
  have hentries : (List.range (1 * outDim)).map (productEntry xs (transposed w outDim inDim) inDim outDim) =
      rowProducts xs w inDim outDim := by
    unfold rowProducts
    rw [Nat.one_mul]
    refine List.map_congr_left fun o ho => ?_
    have ho' := List.mem_range.mp ho
    unfold productEntry
    rw [Nat.div_eq_of_lt ho', Nat.mod_eq_of_lt ho', column_transposed hw ho']
    unfold row
    rw [Nat.zero_mul, List.drop_zero, ← hxs, List.take_length]
  rw [← hentries]
  exact his

/-- `x @ W^T` -/
theorem project_ok {x : Tensor F} {xs w : List F} {outDim inDim : Nat} (hfits : FitsMatrix outDim inDim)
    (hx : x.Is [1, inDim] xs) (hxs : xs.length = inDim) (hw : w.length = outDim * inDim) :
    ∃ z, project x w outDim inDim = .ok z ∧ z.Is [1, outDim] (rowProducts xs w inDim outDim) := by
  have hcells := hfits.cells
  have hout := hfits.outDim
  have hin := hfits.inDim
  obtain ⟨t, ht, his⟩ := matrix_ok hw (by unfold wordSize; omega) (show inDim < wordSize by unfold wordSize; omega)
  obtain ⟨wT, hwT, hisT⟩ := transpose2d_ok his hw hcells (by unfold wordSize; omega)
  obtain ⟨z, hz, hisz⟩ := matmul_transposed hfits hx hxs hisT hw
  refine ⟨z, ?_, hisz⟩
  unfold project
  rw [ht, ok_bind, hwT, ok_bind, hz]

end DensePass

/-! ### The quantized way -/

omit [F32 F] in
/-- A loop over rows that all have a value. -/
theorem rowLoop_eq {ω : Type} {width outFeat : Nat} {rowOf : List ω → Res F} {w : List ω} {y : List F}
    {v : Nat → F} (hw : w.length = outFeat * width) (hy : y.length = outFeat)
    (hrow : ∀ o < outFeat, rowOf (row width w o) = .ok (v o)) :
    rowLoop width rowOf w 0 outFeat y = .ok ((List.range outFeat).map v) := by
  have hcells : ∀ o, 0 ≤ o → o < 0 + outFeat → rowAt width rowOf w o = .ok (v o) := by
    intro o _ ho
    unfold rowAt
    rw [Nat.succ_mul, slice_eq_row (show o < outFeat by omega) hw, ok_bind, hrow o (by omega)]
  unfold rowLoop
  rw [forRange, forFrom_storeAt hcells (by omega)]
  simp only [Nat.sub_zero]
  rw [fill_all fun i hi => ?_, hy]
  rw [List.mem_range'_1]
  omega

/-! ### Rows of blocks -/

omit [F32 F] in
/-- Byte `j` of block `i`. -/
theorem getElem_blocksOf {size : Nat} {bytes : List UInt8} {i j : Nat}
    (hi : i < (blocksOf size bytes).length) (hj : j < size) :
    some (blocksOf size bytes)[i][j] = bytes[i * size + j]? := by
  simp [blocksOf]

omit [F32 F] in
/-- The blocks of a range of whole blocks. -/
theorem blocksOf_range {size lo n : Nat} (hsize : 0 < size) {bytes : List UInt8}
    (hin : (lo + n) * size ≤ bytes.length) :
    blocksOf size ((bytes.drop (lo * size)).take (n * size)) =
      ((blocksOf size bytes).drop lo).take n := by
  have hlength : ((bytes.drop (lo * size)).take (n * size)).length = n * size := by
    rw [Nat.add_mul] at hin
    rw [List.length_take, List.length_drop]
    omega
  have hfits : lo + n ≤ bytes.length / size := (Nat.le_div_iff_mul_le hsize).mpr hin
  refine List.ext_getElem ?_ fun i hi hi' => ?_
  · rw [length_blocksOf, hlength, Nat.mul_div_cancel _ hsize, List.length_take, List.length_drop,
      length_blocksOf]
    omega
  · rw [List.getElem_take, List.getElem_drop]
    refine Vector.ext fun j hj => ?_
    have hcell : i * size + j < n * size := by
      rw [length_blocksOf, hlength, Nat.mul_div_cancel _ hsize] at hi
      exact entry_lt hi hj
    refine Option.some.inj ?_
    rw [getElem_blocksOf, getElem_blocksOf, List.getElem?_take_of_lt hcell, List.getElem?_drop,
      Nat.add_mul, Nat.add_assoc]

section Decoded

variable {per size n k : Nat} {ragged : String} {decode : Vector UInt8 size → List F} {bytes : List UInt8}

omit [F32 F] in
theorem length_decoded (hsize : 0 < size) (hdecode : ∀ block, (decode block).length = per)
    (hbytes : bytes.length = n * (k * size)) : ((blocksOf size bytes).flatMap decode).length = n * (k * per) := by
  rw [length_flatMap_blocksOf hdecode, hbytes, ← Nat.mul_assoc, Nat.mul_div_cancel _ hsize, Nat.mul_assoc]

omit [F32 F] in
/-- The blocks of a row decode to the row of the decoded matrix. -/
theorem decoded_row (hsize : 0 < size) (hdecode : ∀ block, (decode block).length = per)
    (hbytes : bytes.length = n * (k * size)) {o : Nat} (ho : o < n) :
    (blocksOf size (row (k * size) bytes o)).flatMap decode =
      row (k * per) ((blocksOf size bytes).flatMap decode) o := by
  have hend := row_end_le ho hbytes
  unfold row
  rw [← Nat.mul_assoc, ← Nat.mul_assoc, blocksOf_range hsize (by rw [Nat.add_mul, Nat.mul_assoc]; exact hend),
    drop_flatMap hdecode, take_flatMap hdecode]

theorem dequantize_row (hsize : 0 < size) (hdecode : ∀ block, (decode block).length = per)
    (hbytes : bytes.length = n * (k * size)) (hmemory : k * per * 4 < 2 ^ 63) {o : Nat} (ho : o < n) :
    dequantize size per ragged decode (row (k * size) bytes o) =
      .ok (row (k * per) ((blocksOf size bytes).flatMap decode) o) := by
  rw [← decoded_row hsize hdecode hbytes ho]
  exact dequantize_eq (by rw [length_row ho hbytes, Nat.mul_mod_left])
    (by rwa [length_row ho hbytes, Nat.mul_div_cancel _ hsize])

/-- The lookup of a row is the row of the decoded table. -/
theorem embeddingBlocks_eq (hsize : 0 < size) (hdecode : ∀ block, (decode block).length = per) {dim o : Nat}
    (hdim : dim % per = 0) (hbytes : bytes.length = n * (dim / per * size)) (hmemory : bytes.length < 2 ^ 63)
    (hslice : dim * 4 < 2 ^ 63) (ho : o < n) (past short : String) :
    embeddingBlocks per size short past (dequantize size per ragged decode) bytes o dim =
      .ok (row dim ((blocksOf size bytes).flatMap decode) o) := by
  have hend := row_end_le ho hbytes
  have hstart : o * (dim / per) ≤ o * (dim / per) * size := Nat.le_mul_of_pos_right _ hsize
  have hfeat : dim / per * per = dim := Nat.div_mul_cancel (Nat.dvd_of_mod_eq_zero hdim)
  have hrow : dequantize size per ragged decode (row (dim / per * size) bytes o) = _ :=
    dequantize_row hsize hdecode hbytes (by rwa [hfeat]) ho
  rw [hfeat] at hrow
  rw [← Nat.mul_assoc] at hend
  unfold embeddingBlocks
  rw [if_neg (not_not_intro hdim)]
  dsimp only
  rw [word_of_lt (by unfold wordSize; omega), ok_bind, word_of_lt (by unfold wordSize; omega), ok_bind,
    word_of_lt (by unfold wordSize; omega), ok_bind, word_of_lt (by unfold wordSize; omega), ok_bind,
    if_neg (by omega), Nat.mul_assoc, slice_eq_row ho hbytes, ok_bind, hrow]

end Decoded

omit [F32 F] in
/-- A batch of one. -/
theorem linearRows_one {ω : Type} {width inFeat outFeat : Nat} {rowOf : List F → List ω → Res F} {x y : List F}
    {w : List ω} (hx : x.length = inFeat) :
    linearRows width pure rowOf x w y 1 inFeat outFeat = rowLoop width (rowOf x) w 0 outFeat y := by
  have hslice : (slice x (0 * inFeat) ((0 + 1) * inFeat) : Res (List F)) = .ok x := by
    rw [slice_of_le (by omega) (by omega), Nat.zero_mul, List.drop_zero, Nat.zero_add, Nat.one_mul,
      Nat.sub_zero, ← hx, List.take_length]
  unfold linearRows forRange forFrom batchRows
  rw [hslice, ok_bind]
  change (rowLoop width (rowOf x) w (0 * outFeat) outFeat y >>= fun y => .ok y) = _
  rw [Nat.zero_mul]
  cases rowLoop width (rowOf x) w 0 outFeat y with
  | error stop => rfl
  | ok y' => rfl

/-! ### Q4_0 -/

section Q4_0

variable {t : QuantTensor} {inFeat outFeat : Nat}

theorem QuantTensor.OfSize.q4_0 (h : t.OfSize inFeat outFeat) (hdtype : t.dtype = .q4_0) :
    inFeat % 32 = 0 ∧ t.bytes.length = outFeat * (inFeat / 32 * 18) := by
  obtain ⟨per, size, hblock, hwhole, hlength⟩ := h.exact
  rw [hdtype] at hblock
  cases hblock
  exact ⟨hwhole, hlength⟩

theorem QuantTensor.OfSize.length_q4_0 (h : t.OfSize inFeat outFeat) (hdtype : t.dtype = .q4_0) :
    ((blocksOf 18 t.bytes).flatMap (q4_0Weights : _ → List F)).length = outFeat * inFeat := by
  obtain ⟨hwhole, hexact⟩ := h.q4_0 hdtype
  rw [length_decoded (by decide) length_q4_0Weights hexact, Nat.div_mul_cancel (Nat.dvd_of_mod_eq_zero hwhole)]

/-- The linear of a matrix of exact size passes its checks and decodes the matrix. -/
theorem linearQ4_0_eq (build : Build) (h : t.OfSize inFeat outFeat) (hdtype : t.dtype = .q4_0) {x : List F}
    (hx : x.length = inFeat) (regime : UInt8) :
    linearDispatch build x t inFeat outFeat regime = (dequantizeQ4_0 t.bytes >>= fun wF32 =>
      rowLoop inFeat (fun wRow => canonicalDot x wRow inFeat) wF32 0 outFeat (List.replicate outFeat F32.zero)) := by
  obtain ⟨hwhole, hexact⟩ := h.q4_0 hdtype
  have hmemory := h.memory
  have hblocks : outFeat * (inFeat / 32) * 18 = t.bytes.length := by rw [hexact, Nat.mul_assoc]
  rw [linearDispatch_eq h.features.2]
  unfold linearArms
  rw [hdtype]
  dsimp only
  unfold linearQ4_0Cpu
  rw [if_neg (not_not_intro hwhole), word_of_lt (by unfold wordSize; omega), ok_bind,
    word_of_lt (by unfold wordSize; omega), ok_bind, if_neg (by omega), Nat.one_mul, Nat.one_mul,
    word_of_lt (lt_wordSize h.features.1), ok_bind, if_neg (by omega), word_of_lt (lt_wordSize h.features.2), ok_bind,
    if_neg (by rw [List.length_replicate]; omega)]
  simp only [linearRows_one hx]

theorem linearQ4_0_ok (build : Build) (h : t.Holds inFeat outFeat) (hdtype : t.dtype = .q4_0) {x : List F}
    (hx : x.length = inFeat) (regime : UInt8) :
    linearDispatch build x t inFeat outFeat regime =
      .ok (rowProducts x ((blocksOf 18 t.bytes).flatMap q4_0Weights) inFeat outFeat) := by
  have hlength := h.length_q4_0 (F := F) hdtype
  have hdecoded : (dequantizeQ4_0 t.bytes : Res (List F)) = .ok ((blocksOf 18 t.bytes).flatMap q4_0Weights) := by
    refine dequantize_eq (by rw [(h.q4_0 hdtype).2, ← Nat.mul_assoc, Nat.mul_mod_left]) ?_
    rw [← length_flatMap_blocksOf (length_q4_0Weights (F := F)), hlength]
    exact h.decodes hdtype
  rw [linearQ4_0_eq build h.toOfSize hdtype hx, hdecoded, ok_bind]
  exact rowLoop_eq hlength List.length_replicate fun o ho =>
    canonicalDot_eq (Nat.le_of_eq hx.symm) (Nat.le_of_eq (length_row ho hlength).symm)

/-- A matrix whose elements do not fit in memory panics. -/
theorem linearQ4_0_large (build : Build) (h : t.OfSize inFeat outFeat) (hdtype : t.dtype = .q4_0)
    (hlarge : 2 ^ 63 ≤ outFeat * inFeat * 4) {x : List F} (hx : x.length = inFeat) (regime : UInt8) :
    linearDispatch build x t inFeat outFeat regime = panic .capacityOverflow := by
  have hdecoded : (dequantizeQ4_0 t.bytes : Res (List F)) = panic .capacityOverflow := by
    refine dequantize_large (by rw [(h.q4_0 hdtype).2, ← Nat.mul_assoc, Nat.mul_mod_left]) ?_
    rwa [← length_flatMap_blocksOf (length_q4_0Weights (F := F)), h.length_q4_0 hdtype]
  rw [linearQ4_0_eq build h hdtype hx, hdecoded]
  rfl

end Q4_0

end VitniTensor
