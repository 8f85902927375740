import VitniTensor.Model.Llama2c
import VitniTensor.Model.Products
import VitniTensor.Quant.Decoded

/-!
# The layout of a llama2.c blob

A writer of the documented layout: the header, then the sections in order with the two frequency
tables, and the classifier only if it is not shared. Loading takes the sections apart again, and
the slices of a forward step take each section apart by layers.
-/

namespace VitniTensor

open Outcome Rows

variable {F : Type} [F32 F]

/-! ### The writer -/

/-- The arrays of a blob, as the bit patterns of their floats. -/
structure BlobSections (cfg : Config) where
  tokenEmbeddingTable : Vector UInt32 (cfg.vocabSize * cfg.dim)
  rmsAttWeight : Vector UInt32 (cfg.nLayers * cfg.dim)
  wq : Vector UInt32 (cfg.nLayers * (cfg.dim * (cfg.nHeads * (cfg.dim / cfg.nHeads))))
  wk : Vector UInt32 (cfg.nLayers * (cfg.dim * (cfg.nKvHeads * (cfg.dim / cfg.nHeads))))
  wv : Vector UInt32 (cfg.nLayers * (cfg.dim * (cfg.nKvHeads * (cfg.dim / cfg.nHeads))))
  wo : Vector UInt32 (cfg.nLayers * (cfg.nHeads * (cfg.dim / cfg.nHeads) * cfg.dim))
  rmsFfnWeight : Vector UInt32 (cfg.nLayers * cfg.dim)
  w1 : Vector UInt32 (cfg.nLayers * (cfg.hiddenDim * cfg.dim))
  w2 : Vector UInt32 (cfg.nLayers * (cfg.dim * cfg.hiddenDim))
  w3 : Vector UInt32 (cfg.nLayers * (cfg.hiddenDim * cfg.dim))
  rmsFinalWeight : Vector UInt32 cfg.dim
  freqCisReal : Vector UInt32 (cfg.seqLen * (cfg.dim / cfg.nHeads) / 2)
  freqCisImag : Vector UInt32 (cfg.seqLen * (cfg.dim / cfg.nHeads) / 2)
  wcls : Vector UInt32 (cfg.vocabSize * cfg.dim)

/-- A number of the header, if `i32` holds it. -/
def i32Of (n : Int) : Option Int32 :=
  if -2 ^ 31 ≤ n ∧ n < 2 ^ 31 then some (Int32.ofInt n) else none

def writeI32 (v : Int32) : List UInt8 :=
  LittleEndian.toBytes 4 v.toUInt32.toNat

/-- The vocabulary size is negative unless the classifier is shared. -/
def Config.headerInts (cfg : Config) : List Int :=
  [cfg.dim, cfg.hiddenDim, cfg.nLayers, cfg.nHeads, cfg.nKvHeads,
    if cfg.sharedWeights then (cfg.vocabSize : Int) else -cfg.vocabSize, cfg.seqLen]

def writeFloats (xs : List UInt32) : List UInt8 :=
  xs.flatMap fun x => LittleEndian.toBytes 4 x.toNat

namespace BlobSections

variable {cfg : Config} (s : BlobSections cfg)

/-- All floats of the blob, in order. -/
def floats : List UInt32 :=
  s.tokenEmbeddingTable.toList ++ (s.rmsAttWeight.toList ++ (s.wq.toList ++ (s.wk.toList ++ (s.wv.toList ++
    (s.wo.toList ++ (s.rmsFfnWeight.toList ++ (s.w1.toList ++ (s.w2.toList ++ (s.w3.toList ++
      (s.rmsFinalWeight.toList ++ (s.freqCisReal.toList ++ (s.freqCisImag.toList ++
        if cfg.sharedWeights then [] else s.wcls.toList))))))))))))

def write : Option (List UInt8) := do
  let header ← cfg.headerInts.mapM i32Of
  some (header.flatMap writeI32 ++ writeFloats s.floats)

/-- The arrays as floats. -/
def weights : Weights F where
  tokenEmbeddingTable := s.tokenEmbeddingTable.toList.map F32.ofBits
  rmsAttWeight := s.rmsAttWeight.toList.map F32.ofBits
  wq := s.wq.toList.map F32.ofBits
  wk := s.wk.toList.map F32.ofBits
  wv := s.wv.toList.map F32.ofBits
  wo := s.wo.toList.map F32.ofBits
  rmsFfnWeight := s.rmsFfnWeight.toList.map F32.ofBits
  w1 := s.w1.toList.map F32.ofBits
  w2 := s.w2.toList.map F32.ofBits
  w3 := s.w3.toList.map F32.ofBits
  rmsFinalWeight := s.rmsFinalWeight.toList.map F32.ofBits
  wcls := (if cfg.sharedWeights then s.tokenEmbeddingTable else s.wcls).toList.map F32.ofBits

end BlobSections

/-- An array keeps its length. -/
theorem length_array {n : Nat} (xs : Vector UInt32 n) : (xs.toList.map (F32.ofBits : _ → F)).length = n := by
  rw [List.length_map, Vector.length_toList]

/-! ### Words -/

theorem toNat_shiftLeft_byte (b : UInt8) {k : Nat} (hk : k ≤ 24) :
    (b.toUInt32 <<< UInt32.ofNat k).toNat = 2 ^ k * b.toNat := by
  have hb := b.toNat_lt
  have hamount : (UInt32.ofNat k).toNat % 32 = k := by
    rw [UInt32.toNat_ofNat']
    omega
  have hsmall : b.toNat * 2 ^ k < 2 ^ 32 :=
    calc b.toNat * 2 ^ k ≤ b.toNat * 2 ^ 24 := Nat.mul_le_mul_left _ (Nat.pow_le_pow_right (by decide) hk)
      _ < 2 ^ 32 := by omega
  rw [UInt32.toNat_shiftLeft, hamount, Nat.shiftLeft_eq, UInt8.toNat_toUInt32, Nat.mod_eq_of_lt hsmall, Nat.mul_comm]

/-- Four bytes side by side. -/
theorem toNat_word (b0 b1 b2 b3 : UInt8) :
    (b0.toUInt32 ||| (b1.toUInt32 <<< 8) ||| (b2.toUInt32 <<< 16) ||| (b3.toUInt32 <<< 24)).toNat =
      b0.toNat + 256 * (b1.toNat + 256 * (b2.toNat + 256 * b3.toNat)) := by
  have h0 := b0.toNat_lt
  have h1 := b1.toNat_lt
  have h2 := b2.toNat_lt
  have hs1 : (b1.toUInt32 <<< 8).toNat = 2 ^ 8 * b1.toNat := toNat_shiftLeft_byte b1 (by decide)
  have hs2 : (b2.toUInt32 <<< 16).toNat = 2 ^ 16 * b2.toNat := toNat_shiftLeft_byte b2 (by decide)
  have hs3 : (b3.toUInt32 <<< 24).toNat = 2 ^ 24 * b3.toNat := toNat_shiftLeft_byte b3 (by decide)
  have hor : ∀ {k low high : Nat}, low < 2 ^ k → low ||| 2 ^ k * high = 2 ^ k * high + low := by
    intro k low high hlow
    rw [Nat.or_comm, ← Nat.two_pow_add_eq_or_of_lt hlow]
  rw [UInt32.toNat_or, UInt32.toNat_or, UInt32.toNat_or, hs1, hs2, hs3, UInt8.toNat_toUInt32,
    hor (k := 8) (show b0.toNat < 2 ^ 8 by omega), hor (k := 16) (show 2 ^ 8 * b1.toNat + b0.toNat < 2 ^ 16 by omega),
    hor (k := 24) (show 2 ^ 16 * b2.toNat + (2 ^ 8 * b1.toNat + b0.toNat) < 2 ^ 24 by omega)]
  omega

/-- A word as its bytes. -/
def wordBytes (x : UInt32) : Vector UInt8 4 :=
  ⟨(LittleEndian.toBytes 4 x.toNat).toArray, by rw [List.size_toArray, LittleEndian.length_toBytes]⟩

theorem f32Le_wordBytes (x : UInt32) : (f32Le (wordBytes x) : F) = F32.ofBits x := by
  have hx := x.toNat_lt
  unfold f32Le
  congr 1
  apply UInt32.toNat_inj.mp
  rw [toNat_word]
  simp only [wordBytes, LittleEndian.toBytes, Vector.getElem_mk, List.getElem_toArray, List.getElem_cons_zero,
    List.getElem_cons_succ, UInt8.toNat_ofNat']
  omega

/-- Written floats are read back. -/
theorem floats_writeFloats (xs : List UInt32) :
    (blocksOf 4 (writeFloats xs)).map (f32Le : _ → F) = xs.map F32.ofBits := by
  have hwords : writeFloats xs = (xs.map wordBytes).flatMap Vector.toList := by
    unfold writeFloats
    rw [List.flatMap_map]
    rfl
  rw [hwords, blocksOf_flatMap (by decide), List.map_map]
  apply List.map_congr_left
  intro x _
  exact f32Le_wordBytes x

@[simp] theorem length_writeFloats (xs : List UInt32) : (writeFloats xs).length = xs.length * 4 := by
  unfold writeFloats
  simp only [List.length_flatMap, LittleEndian.length_toBytes, List.map_const', List.sum_replicate_nat]

/-! ### The header -/

namespace Config

theorem asUsize_ofNat {n : Nat} (h : n < 2 ^ 31) : asUsize (Int32.ofInt n) = n := by
  have hint : (Int32.ofInt n).toInt = n := Int32.toInt_ofInt_of_le (by omega) (by omega)
  have hpos : 0 ≤ (Int32.ofInt n).toInt64 := by
    rw [Int64.le_iff_toInt_le, Int32.toInt_toInt64, hint]
    exact Int.natCast_nonneg n
  unfold asUsize
  rw [Int64.toNat_toUInt64_of_le hpos, Int64.toNatClampNeg, Int32.toInt_toInt64, hint, Int.toNat_natCast]

theorem i32Of_eq_some {n : Int} {v : Int32} (h : i32Of n = some v) :
    v.toInt = n ∧ v = Int32.ofInt n ∧ n < 2 ^ 31 := by
  unfold i32Of at h
  split at h
  next hrange =>
    cases h
    exact ⟨Int32.toInt_ofInt_of_le (by omega) (by omega), rfl, hrange.2⟩
  next => cases h

/-- A slice behind a first part. -/
theorem slice_append {ε α : Type} (xs ys : List α) (lo hi : Nat) :
    (slice (xs ++ ys) (xs.length + lo) (xs.length + hi) : Outcome ε (List α)) = slice ys lo hi := by
  have hbounds : (xs.length + lo ≤ xs.length + hi ∧ xs.length + hi ≤ xs.length + ys.length) ↔
      (lo ≤ hi ∧ hi ≤ ys.length) := by
    omega
  unfold slice
  rw [List.length_append, List.drop_length_add_append, Nat.add_sub_add_left, if_congr hbounds rfl rfl]

/-- Number `k` of a header. -/
theorem readI32_write {vs : List Int32} {k : Nat} {v : Int32} (h : vs[k]? = some v) (rest : List UInt8) :
    readI32 (vs.flatMap writeI32 ++ rest) (4 * k) = .ok v := by
  have hwrite : (writeI32 v).length = 4 := LittleEndian.length_toBytes 4 _
  induction vs generalizing k with
  | nil => cases h
  | cons w vs ih =>
    have hw : (writeI32 w).length = 4 := LittleEndian.length_toBytes 4 _
    rw [List.flatMap_cons, List.append_assoc]
    cases k with
    | zero =>
      cases h
      have hv := v.toUInt32.toNat_lt
      have hword : LittleEndian.ofBytes (writeI32 v) = v.toUInt32.toNat :=
        LittleEndian.ofBytes_toBytes (by omega)
      rw [readI32_eq (by rw [List.length_append]; omega), Nat.mul_zero, List.drop_zero,
        List.take_left' hwrite, hword, UInt32.ofNat_toNat, Int32.toInt32_toUInt32]
    | succ k =>
      have hshift := slice_append (ε := Error) (writeI32 w) (vs.flatMap writeI32 ++ rest) (4 * k) (4 * k + 4)
      have hoff : 4 * (k + 1) = 4 + 4 * k := Nat.mul_succ 4 k ▸ Nat.add_comm _ _
      rw [hw] at hshift
      rw [← ih h]
      unfold readI32
      rw [hoff, Nat.add_assoc, hshift]

/-- Every dimension is there. -/
structure Positive (cfg : Config) : Prop where
  dim : 0 < cfg.dim
  hiddenDim : 0 < cfg.hiddenDim
  nLayers : 0 < cfg.nLayers
  nHeads : 0 < cfg.nHeads
  nKvHeads : 0 < cfg.nKvHeads
  vocabSize : 0 < cfg.vocabSize
  seqLen : 0 < cfg.seqLen

/-- What `mapM` returns, entry by entry. -/
theorem getElem?_mapM {xs : List Int} {vs : List Int32} (h : xs.mapM i32Of = some vs) :
    vs.length = xs.length ∧ ∀ (k : Nat) (n : Int), xs[k]? = some n → ∃ v, vs[k]? = some v ∧ i32Of n = some v := by
  induction xs generalizing vs with
  | nil =>
    cases h
    exact ⟨rfl, fun k n hk => (nomatch hk)⟩
  | cons x xs ih =>
    rw [List.mapM_cons] at h
    obtain ⟨v, hv, h⟩ := Option.bind_eq_some_iff.mp h
    obtain ⟨vs, hvs, h⟩ := Option.bind_eq_some_iff.mp h
    cases h
    obtain ⟨hlength, hentries⟩ := ih hvs
    refine ⟨by rw [List.length_cons, List.length_cons, hlength], fun k n hk => ?_⟩
    cases k with
    | zero =>
      cases hk
      exact ⟨v, rfl, hv⟩
    | succ k => exact hentries k n hk

theorem length_header {cfg : Config} {header : List Int32} (h : cfg.headerInts.mapM i32Of = some header) :
    (header.flatMap writeI32).length = 28 := by
  unfold writeI32
  simp only [List.length_flatMap, LittleEndian.length_toBytes, List.map_const', List.sum_replicate_nat,
    (getElem?_mapM h).1]
  rfl

/-- A written header is read back. -/
theorem fromHeader_write {cfg : Config} (hpos : cfg.Positive) {header : List Int32}
    (h : cfg.headerInts.mapM i32Of = some header) (rest : List UInt8) :
    fromHeader (header.flatMap writeI32 ++ rest) = .ok cfg := by
  obtain ⟨-, hentries⟩ := getElem?_mapM h
  have hread : ∀ (k : Nat) (n : Int), cfg.headerInts[k]? = some n →
      ∃ v, readI32 (header.flatMap writeI32 ++ rest) (4 * k) = .ok v ∧ i32Of n = some v := by
    intro k n hk
    obtain ⟨v, hv, hint⟩ := hentries k n hk
    exact ⟨v, readI32_write hv rest, hint⟩
  have hsize : ∀ (k n : Nat), cfg.headerInts[k]? = some (n : Int) →
      ∃ v, readI32 (header.flatMap writeI32 ++ rest) (4 * k) = .ok v ∧ asUsize v = n := by
    intro k n hk
    obtain ⟨v, hv, hint⟩ := hread k n hk
    obtain ⟨-, rfl, hsmall⟩ := i32Of_eq_some hint
    exact ⟨_, hv, asUsize_ofNat (by omega)⟩
  have hblob : ¬(header.flatMap writeI32 ++ rest).length < 28 := by
    rw [List.length_append, length_header h]
    omega
  obtain ⟨dim, hdim, hdimSize⟩ := hsize 0 cfg.dim rfl
  obtain ⟨hiddenDim, hhidden, hhiddenSize⟩ := hsize 1 cfg.hiddenDim rfl
  obtain ⟨nLayers, hlayers, hlayersSize⟩ := hsize 2 cfg.nLayers rfl
  obtain ⟨nHeads, hheads, hheadsSize⟩ := hsize 3 cfg.nHeads rfl
  obtain ⟨nKvHeads, hkv, hkvSize⟩ := hsize 4 cfg.nKvHeads rfl
  obtain ⟨rawVocab, hvocab, hvocabInt⟩ := hread 5 _ rfl
  obtain ⟨seqLen, hseq, hseqSize⟩ := hsize 6 cfg.seqLen rfl
  have hraw := (i32Of_eq_some hvocabInt).1
  have hshared : decide (0 < rawVocab) = cfg.sharedWeights := by
    have hvocabPos := hpos.vocabSize
    rw [Bool.eq_iff_iff, decide_eq_true_eq, Int32.lt_iff_toInt_lt, hraw]
    cases cfg.sharedWeights with
    | true => simp; omega
    | false => simp
  have hvocabSize : rawVocab.toInt.natAbs = cfg.vocabSize := by
    rw [hraw]
    split <;> omega
  unfold fromHeader
  rw [if_neg hblob, hdim, ok_bind, hhidden, ok_bind, hlayers, ok_bind, hheads, ok_bind, hkv, ok_bind, hvocab, ok_bind,
    hseq, ok_bind, hdimSize, hhiddenSize, hlayersSize, hheadsSize, hkvSize, hseqSize, hshared, hvocabSize]
  rfl

end Config

/-! ### The cut -/

namespace Weights

omit [F32 F] in
/-- What lies behind the cursor. -/
structure Rest (src : List F) (p : Nat) (rest : List F) : Prop where
  drop : src.drop p = rest
  le : p ≤ src.length

omit [F32 F] in
theorem Rest.end_le {src s rest : List F} {p : Nat} (h : Rest src p (s ++ rest)) : p + s.length ≤ src.length := by
  have hlength := congrArg List.length h.drop
  have hle := h.le
  rw [List.length_drop, List.length_append] at hlength
  omega

omit [F32 F] in
/-- The section behind the cursor is cut off. -/
theorem Rest.take {src s rest : List F} {p n : Nat} (h : Rest src p (s ++ rest)) (hmem : src.length < wordSize)
    (hn : s.length = n) : take src p n = .ok (s, p + n) ∧ n < wordSize ∧ Rest src (p + n) rest := by
  have hend := h.end_le
  subst hn
  refine ⟨?_, by omega, ?_⟩
  · unfold Weights.take
    rw [word_of_lt (by omega), ok_bind, if_neg (Nat.not_lt.mpr hend), slice_of_le (Nat.le_add_right p _) hend,
      Nat.add_sub_cancel_left, h.drop, List.take_left]
    rfl
  · refine ⟨?_, hend⟩
    rw [← List.drop_drop, h.drop, List.drop_left]

end Weights

namespace BlobSections

variable {cfg : Config}

theorem fromBlob_sections (s : BlobSections cfg) (hpos : cfg.Positive) {header : List UInt8} (hheader : header.length = 28)
    (hmem : (header ++ writeFloats s.floats).length < 2 ^ 63) :
    Weights.fromBlob (header ++ writeFloats s.floats) true cfg = .ok (s.weights : Weights F) := by
  have hdim := hpos.dim
  have hlayers := hpos.nLayers
  rw [List.length_append, hheader, length_writeFloats] at hmem
  have hview : f32View ((header ++ writeFloats s.floats).drop 28) true = .ok (s.floats.map (F32.ofBits : _ → F)) := by
    rw [← hheader, List.drop_left]
    unfold f32View
    rw [length_writeFloats, if_neg (by omega), floats_writeFloats]
    rfl
  have hlong : ¬(header ++ writeFloats s.floats).length < 28 := by
    rw [List.length_append, hheader]
    omega
  unfold Weights.fromBlob
  rw [if_neg hlong, hview, ok_bind]
  have hsrc : (s.floats.map (F32.ofBits : _ → F)).length < 2 ^ 61 := by
    rw [List.length_map]
    omega
  generalize hfloats : s.floats.map (F32.ofBits : _ → F) = src at hsrc ⊢
  have hword : src.length < wordSize := Nat.lt_trans hsrc (by decide)
  have r0 : Weights.Rest src 0 (s.floats.map F32.ofBits) := ⟨by rw [hfloats, List.drop_zero], Nat.zero_le _⟩
  unfold floats at r0
  simp only [List.map_append] at r0
  -- the sections one after the other
  obtain ⟨htok, hVD, r1⟩ := r0.take hword (length_array _)
  obtain ⟨hatt, hnorm, r2⟩ := r1.take hword (length_array _)
  obtain ⟨hwq, hqLen, r3⟩ := r2.take hword (n := cfg.nLayers * cfg.dim * (cfg.nHeads * (cfg.dim / cfg.nHeads)))
    ((length_array _).trans (Nat.mul_assoc _ _ _).symm)
  obtain ⟨hwk, hkLen, r4⟩ := r3.take hword (n := cfg.nLayers * cfg.dim * (cfg.nKvHeads * (cfg.dim / cfg.nHeads)))
    ((length_array _).trans (Nat.mul_assoc _ _ _).symm)
  obtain ⟨hwv, hvLen, r5⟩ := r4.take hword (n := cfg.nLayers * cfg.dim * (cfg.nKvHeads * (cfg.dim / cfg.nHeads)))
    ((length_array _).trans (Nat.mul_assoc _ _ _).symm)
  obtain ⟨hwo, hoLen, r6⟩ := r5.take hword (n := cfg.nLayers * (cfg.nHeads * (cfg.dim / cfg.nHeads)) * cfg.dim)
    ((length_array _).trans (Nat.mul_assoc _ _ _).symm)
  obtain ⟨hffn, -, r7⟩ := r6.take hword (length_array _)
  obtain ⟨hw1, h1Len, r8⟩ := r7.take hword (n := cfg.nLayers * cfg.hiddenDim * cfg.dim)
    ((length_array _).trans (Nat.mul_assoc _ _ _).symm)
  obtain ⟨hw2, h2Len, r9⟩ := r8.take hword (n := cfg.nLayers * cfg.dim * cfg.hiddenDim)
    ((length_array _).trans (Nat.mul_assoc _ _ _).symm)
  obtain ⟨hw3, h3Len, r10⟩ := r9.take hword (n := cfg.nLayers * cfg.hiddenDim * cfg.dim)
    ((length_array _).trans (Nat.mul_assoc _ _ _).symm)
  obtain ⟨hfinal, -, r11⟩ := r10.take hword (length_array _)
  obtain ⟨-, hfreqLen, r12⟩ := r11.take hword (length_array _)
  obtain ⟨-, -, r13⟩ := r12.take hword (length_array _)
  have htables := r13.le
  -- no partial product is larger than a section
  have hheads : cfg.nHeads * (cfg.dim / cfg.nHeads) < wordSize :=
    Nat.lt_of_le_of_lt (Nat.mul_div_le cfg.dim cfg.nHeads)
      (Nat.lt_of_le_of_lt (Nat.le_mul_of_pos_left _ hlayers) hnorm)
  have hkvHeads : cfg.nKvHeads * (cfg.dim / cfg.nHeads) < wordSize :=
    Nat.lt_of_le_of_lt (Nat.le_mul_of_pos_left _ (Nat.mul_pos hlayers hdim)) hkLen
  have hlayerHeads : cfg.nLayers * (cfg.nHeads * (cfg.dim / cfg.nHeads)) < wordSize :=
    Nat.lt_of_le_of_lt (Nat.le_mul_of_pos_right _ hdim) hoLen
  have hlayerHidden : cfg.nLayers * cfg.hiddenDim < wordSize :=
    Nat.lt_of_le_of_lt (Nat.le_mul_of_pos_right _ hdim) h1Len
  have hfreqs : cfg.seqLen * (cfg.dim / cfg.nHeads) < wordSize := by omega
  have hproj := (Weights.computes_projLen cfg cfg.nHeads (cfg.dim / cfg.nHeads)).fits (by simp [hnorm, hheads, hqLen])
  have hkvProj := (Weights.computes_projLen cfg cfg.nKvHeads (cfg.dim / cfg.nHeads)).fits
    (by simp [hnorm, hkvHeads, hkLen])
  have hout := (Weights.computes_outLen cfg (cfg.dim / cfg.nHeads)).fits (by simp [hheads, hlayerHeads, hoLen])
  have hup := (Weights.computes_mul3 cfg.nLayers cfg.hiddenDim cfg.dim).fits (by simp [hlayerHidden, h1Len])
  have hdown := (Weights.computes_mul3 cfg.nLayers cfg.dim cfg.hiddenDim).fits (by simp [hnorm, h2Len])
  unfold Config.headSize
  rw [div_of_pos hpos.nHeads, ok_bind, word_of_lt hVD, word_of_lt hnorm, hproj, hkvProj, hout, hup, hdown]
  simp only [ok_bind, htok, hatt, hwq, hwk, hwv, hwo, hffn, hw1, hw2, hw3, hfinal]
  rw [word_of_lt hfreqs, ok_bind, word_of_lt (by omega), ok_bind, word_of_lt (by omega), ok_bind]
  unfold weights
  cases hshared : cfg.sharedWeights with
  | true => rfl
  | false =>
    rw [if_neg Bool.false_ne_true, if_neg Bool.false_ne_true]
    rw [hshared, if_neg Bool.false_ne_true, ← List.append_nil (s.wcls.toList.map F32.ofBits)] at r13
    rw [(r13.take hword (length_array _)).1]
    rfl

end BlobSections

/-! ### The slices of a step -/

/-- The slices of `n` numbers for `count` layers are in range, and take the array apart without a
gap or an overlap. -/
def Tiles (ws : List F) (count n : Nat) : Prop :=
  ∃ parts, collectRange count (fun layer => DensePass.layerSlice ws layer n) = .ok parts ∧
    (∀ part ∈ parts, part.length = n) ∧ parts.flatten = ws

omit [F32 F] in
theorem tiles_of_length {ws : List F} {count n : Nat} (h : ws.length = count * n) : Tiles ws count n := by
  refine ⟨(List.range count).map (row n ws), ?_, fun part hpart => ?_, flatten_rows h⟩
  · apply collectRange_eq
    intro layer hlayer
    unfold DensePass.layerSlice
    rw [Nat.succ_mul]
    exact slice_eq_row hlayer h
  · obtain ⟨layer, hlayer, rfl⟩ := List.mem_map.mp hpart
    exact length_row (List.mem_range.mp hlayer) h

/-- Every array is cut up by a step as it should be. -/
structure DensePass.SlicesTile (p : DensePass F) : Prop where
  tokenEmbeddingTable : Tiles p.weights.tokenEmbeddingTable p.cfg.vocabSize p.cfg.dim
  rmsAttWeight : Tiles p.weights.rmsAttWeight p.cfg.nLayers p.cfg.dim
  wq : Tiles p.weights.wq p.cfg.nLayers (p.cfg.dim * p.cfg.dim)
  wk : Tiles p.weights.wk p.cfg.nLayers (p.cfg.dim * p.kvDim)
  wv : Tiles p.weights.wv p.cfg.nLayers (p.cfg.dim * p.kvDim)
  wo : Tiles p.weights.wo p.cfg.nLayers (p.cfg.dim * p.cfg.dim)
  rmsFfnWeight : Tiles p.weights.rmsFfnWeight p.cfg.nLayers p.cfg.dim
  w1 : Tiles p.weights.w1 p.cfg.nLayers (p.cfg.dim * p.cfg.hiddenDim)
  w2 : Tiles p.weights.w2 p.cfg.nLayers (p.cfg.dim * p.cfg.hiddenDim)
  w3 : Tiles p.weights.w3 p.cfg.nLayers (p.cfg.dim * p.cfg.hiddenDim)
  rmsFinalWeight : p.weights.rmsFinalWeight.length = p.cfg.dim
  wcls : p.weights.wcls.length = p.cfg.vocabSize * p.cfg.dim

namespace BlobSections

variable {cfg : Config}

theorem slicesTile (s : BlobSections cfg) (hpos : cfg.Positive) (hdvd : cfg.nHeads ∣ cfg.dim)
    (hkvDim : cfg.dim * cfg.nKvHeads < wordSize) (pos : Nat) :
    ∃ p, DensePass.of cfg (s.weights : Weights F) pos = .ok p ∧ p.SlicesTile := by
  have hheads : cfg.nHeads * (cfg.dim / cfg.nHeads) = cfg.dim := Nat.mul_div_cancel' hdvd
  -- `kv_dim` is a whole number of heads
  have hkvHeads : cfg.nKvHeads * (cfg.dim / cfg.nHeads) = cfg.dim * cfg.nKvHeads / cfg.nHeads := by
    rw [← Nat.mul_div_assoc _ hdvd, Nat.mul_comm]
  unfold DensePass.of Config.kvDim Config.kvMul Config.headSize
  rw [word_of_lt hkvDim, ok_bind, div_of_pos hpos.nHeads, ok_bind, div_of_pos hpos.nKvHeads, ok_bind,
    div_of_pos hpos.nHeads, ok_bind]
  refine ⟨_, rfl, ?_⟩
  constructor
  case tokenEmbeddingTable => exact tiles_of_length (length_array _)
  case rmsAttWeight => exact tiles_of_length (length_array _)
  case wq => exact tiles_of_length ((length_array _).trans (by rw [hheads]))
  case wk => exact tiles_of_length ((length_array _).trans (by rw [hkvHeads]))
  case wv => exact tiles_of_length ((length_array _).trans (by rw [hkvHeads]))
  case wo => exact tiles_of_length ((length_array _).trans (by rw [hheads]))
  case rmsFfnWeight => exact tiles_of_length (length_array _)
  case w1 => exact tiles_of_length ((length_array _).trans (by rw [Nat.mul_comm cfg.hiddenDim]))
  case w2 => exact tiles_of_length (length_array _)
  case w3 => exact tiles_of_length ((length_array _).trans (by rw [Nat.mul_comm cfg.hiddenDim]))
  case rmsFinalWeight => exact length_array _
  case wcls => exact length_array _

/-- **The layout is decoded exactly.** A blob that is written, and fits in memory, is loaded as the
configuration and the arrays it was written from, and the slices of a step tile these. -/
theorem load_write (s : BlobSections cfg) (hpos : cfg.Positive) (hdvd : cfg.nHeads ∣ cfg.dim) {blob : List UInt8}
    (hwrite : s.write = some blob) (hmem : blob.length < 2 ^ 63) :
    loadBlob blob true = .ok (cfg, (s.weights : Weights F)) ∧
      ∀ pos, ∃ p, DensePass.of cfg (s.weights : Weights F) pos = .ok p ∧ p.SlicesTile := by
  unfold write at hwrite
  obtain ⟨header, hheader, hwrite⟩ := Option.bind_eq_some_iff.mp hwrite
  cases hwrite
  have hsmall : ∀ (k n : Nat), cfg.headerInts[k]? = some (n : Int) → n < 2 ^ 31 := by
    intro k n hk
    obtain ⟨v, -, hint⟩ := (Config.getElem?_mapM hheader).2 k n hk
    have hlt := (Config.i32Of_eq_some hint).2.2
    omega
  have hkvDim : cfg.dim * cfg.nKvHeads < wordSize :=
    Nat.lt_of_lt_of_le (Nat.mul_lt_mul'' (hsmall 0 cfg.dim rfl) (hsmall 4 cfg.nKvHeads rfl)) (by decide)
  constructor
  · unfold loadBlob
    rw [Config.fromHeader_write hpos hheader, ok_bind, s.fromBlob_sections hpos (Config.length_header hheader) hmem]
    rfl
  · exact s.slicesTile hpos hdvd hkvDim

/-- One layer with two heads over one key head, and a classifier of its own. -/
def tinyConfig : Config where
  dim := 4
  hiddenDim := 3
  nLayers := 1
  nHeads := 2
  nKvHeads := 1
  vocabSize := 2
  seqLen := 2
  sharedWeights := false

/-- Every array has its own number. -/
def tiny : BlobSections tinyConfig where
  tokenEmbeddingTable := Vector.replicate _ 1
  rmsAttWeight := Vector.replicate _ 2
  wq := Vector.replicate _ 3
  wk := Vector.replicate _ 4
  wv := Vector.replicate _ 5
  wo := Vector.replicate _ 6
  rmsFfnWeight := Vector.replicate _ 7
  w1 := Vector.replicate _ 8
  w2 := Vector.replicate _ 9
  w3 := Vector.replicate _ 10
  rmsFinalWeight := Vector.replicate _ 11
  freqCisReal := Vector.replicate _ 12
  freqCisImag := Vector.replicate _ 13
  wcls := Vector.replicate _ 14

theorem load_write_tiny :
    ∃ blob, tiny.write = some blob ∧
      loadBlob blob true = .ok (tinyConfig, (tiny.weights : Weights Cost)) ∧
      ∃ p, DensePass.of tinyConfig (tiny.weights : Weights Cost) 1 = .ok p ∧ p.SlicesTile := by
  have hpos : tinyConfig.Positive := by
    constructor <;> decide
  have hlength : tiny.write.map List.length = some 492 := by decide +kernel
  obtain ⟨blob, hwrite, hblob⟩ := Option.map_eq_some_iff.mp hlength
  have hload := load_write (F := Cost) tiny hpos (by decide) hwrite (by rw [hblob]; decide)
  exact ⟨blob, hwrite, hload.1, hload.2 1⟩

end BlobSections

end VitniTensor
