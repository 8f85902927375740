import VitniTensor.Gguf.RoundTrip
import VitniTensor.Quant.Blocks
import Mathlib.Data.List.Induction

/-!
# Loaded tensors

What a file that parses has in memory: every tensor is the byte range that its info names, of
the exact size of its shape and type, and the index leads to the last tensor of each name.
-/

namespace VitniTensor

open Outcome Exec

/-- `GgufTensor::numel`, which saturates. -/
def GgufTensor.numel (t : GgufTensor) : Nat :=
  t.shape.foldl (fun acc dim => min (acc * dim.toNat) (wordSize - 1)) 1

/-- The dequantizer of a block format. -/
def GgufTensorType.dequantizer (F : Type) [F32 F] : GgufTensorType → Option (List UInt8 → Res (List F))
  | q4_0 => some dequantizeQ4_0
  | q5_0 => some dequantizeQ5_0
  | q8_0 => some dequantizeQ8_0
  | q4_k => some dequantizeQ4K
  | q6_k => some dequantizeQ6K
  | f32 | f16 | other _ => none

/-- The least multiple of `alignment` that is not before `pos`. -/
structure LeastAligned (alignment pos base : Nat) : Prop where
  dvd : alignment ∣ base
  le : pos ≤ base
  least : ∀ n, alignment ∣ n → pos ≤ n → base ≤ n

/-- The tensor of an info in a file whose data begin at `base`. -/
structure GgufTensor.IsLoaded (blob : List UInt8) (base : Nat) (info : TensorInfo) (t : GgufTensor) :
    Prop where
  same : t.name = info.name ∧ t.shape = info.shape ∧ t.dtype = info.dtype
  numel : t.numel = numelOf t.shape
  bytes : ∃ per size, t.dtype.block = some (per, size) ∧ numelOf t.shape % per = 0 ∧
    base + info.offset.toNat + numelOf t.shape / per * size ≤ blob.length ∧
    t.bytes = (blob.drop (base + info.offset.toNat)).take (numelOf t.shape / per * size)

/-- Every name leads to its last tensor. -/
structure GgufFile.Indexed (f : GgufFile) : Prop where
  sound : ∀ (name : String) i, f.byName[name]? = some i → ∃ t, f.tensors[i]? = some t ∧ t.name = name ∧
    ∀ (j : Nat) t', f.tensors[j]? = some t' → t'.name = name → j ≤ i
  complete : ∀ t ∈ f.tensors, ∃ i, f.byName[t.name]? = some i

/-! ### Sizes -/

theorem leastAligned_divCeil {alignment pos : Nat} (hpos : 0 < alignment) :
    LeastAligned alignment pos ((pos + alignment - 1) / alignment * alignment) := by
  refine ⟨Nat.dvd_mul_left _ _, ?_, fun n hn hle => ?_⟩
  · have hquotient := Nat.div_add_mod (pos + alignment - 1) alignment
    have hrem := Nat.mod_lt (pos + alignment - 1) hpos
    rw [Nat.mul_comm] at hquotient
    omega
  · obtain ⟨k, rfl⟩ := hn
    have hlt : (pos + alignment - 1) / alignment < k + 1 := by
      rw [Nat.div_lt_iff_lt_mul hpos, Nat.add_mul, Nat.one_mul, Nat.mul_comm k]
      omega
    rw [Nat.mul_comm alignment k]
    exact Nat.mul_le_mul_right alignment (Nat.le_of_lt_succ hlt)

/-- Where the checked product is there, it is exact, and so is the saturating one. -/
theorem checkedNumel_ok {shape : List UInt64} {n : Nat} (h : checkedNumel shape = .ok n) :
    n = numelOf shape ∧ shape.foldl (fun acc dim => min (acc * dim.toNat) (wordSize - 1)) 1 = n := by
  -- Where the checked product went through, the saturating one of `numel` is the same.
  have hfold : ∀ (shape : List UInt64) (acc : Nat), (shape.foldlM
      (fun numel dim => okOr (checked (numel * dim.toNat))
        (Error.overflow "gguf: shape product overflows u64")) acc : Res Nat) = .ok n →
      n = acc * numelOf shape ∧
        shape.foldl (fun acc dim => min (acc * dim.toNat) (wordSize - 1)) acc = n := by
    intro shape
    induction shape with
    | nil =>
      intro acc h
      cases h
      exact ⟨by simp [numelOf], rfl⟩
    | cons dim shape ih =>
      intro acc h
      rw [List.foldlM_cons] at h
      obtain ⟨product, hproduct, h⟩ := bind_eq_ok.mp h
      obtain ⟨hfits, rfl⟩ := okOr_checked_eq_ok.mp hproduct
      obtain ⟨hn, hsat⟩ := ih _ h
      -- A product that fits is not cut off.
      have hmin : min (acc * dim.toNat) (wordSize - 1) = acc * dim.toNat := by omega
      refine ⟨?_, ?_⟩
      · rw [hn, numelOf, numelOf, List.map_cons, List.prod_cons, Nat.mul_assoc]
      · rw [List.foldl_cons, hmin, hsat]
  obtain ⟨hn, hsat⟩ := hfold shape 1 h
  exact ⟨by rw [hn, Nat.one_mul], hsat⟩

theorem bytesForNumel_ok {dtype : GgufTensorType} {numel n : Nat} (h : dtype.bytesForNumel numel = .ok n) :
    ∃ per size, dtype.block = some (per, size) ∧ numel % per = 0 ∧ n = numel / per * size := by
  have hblock : ∀ {per size : Nat} {unaligned overflow : String},
      GgufTensorType.blockBytes numel per size unaligned overflow = .ok n →
        -- Blocked types check for whole blocks first.
        numel % per = 0 ∧ n = numel / per * size := by
    intro per size unaligned overflow h
    unfold GgufTensorType.blockBytes at h
    split at h
    next => cases h
    next hwhole => exact ⟨not_not.mp hwhole, (okOr_checked_eq_ok.mp h).2.symm⟩
  -- Dense types have one element a block, so any number of them is whole.
  have hflat : ∀ {size : Nat} {e : Error}, (okOr (checked (numel * size)) e : Res Nat) = .ok n →
      numel % 1 = 0 ∧ n = numel / 1 * size := by
    intro size e h
    exact ⟨Nat.mod_one numel, by rw [Nat.div_one, (okOr_checked_eq_ok.mp h).2]⟩
  cases dtype with
  | other raw => cases h
  | f32 => exact ⟨_, _, rfl, hflat h⟩
  | f16 => exact ⟨_, _, rfl, hflat h⟩
  | _ => exact ⟨_, _, rfl, hblock h⟩

theorem sliceTensor_ok {blob : List UInt8} {base : Nat} {info : TensorInfo} {t : GgufTensor}
    (h : GgufFile.sliceTensor blob base info = .ok t) : t.IsLoaded blob base info := by
  -- Every check the slicing makes has been passed.
  obtain ⟨numel, hnumel, h⟩ := bind_eq_ok.mp h
  obtain ⟨nbytes, hnbytes, h⟩ := bind_eq_ok.mp h
  obtain ⟨start, hstart, h⟩ := bind_eq_ok.mp h
  obtain ⟨«end», hend, h⟩ := bind_eq_ok.mp h
  obtain ⟨-, rfl⟩ := okOr_checked_eq_ok.mp hstart
  obtain ⟨-, rfl⟩ := okOr_checked_eq_ok.mp hend
  obtain ⟨hexact, hsat⟩ := checkedNumel_ok hnumel
  obtain ⟨per, size, hblock, hwhole, rfl⟩ := bytesForNumel_ok hnbytes
  subst hexact
  split at h
  next => cases h
  next hinside =>
    obtain ⟨bytes, hbytes, h⟩ := bind_eq_ok.mp h
    cases h
    obtain ⟨-, rfl⟩ := slice_eq_ok.mp hbytes
    rw [Nat.add_sub_cancel_left]
    exact ⟨⟨rfl, rfl, rfl⟩, hsat, per, size, hblock, hwhole, Nat.le_of_not_lt hinside, rfl⟩

/-! ### The index -/

/-- Of equal names, the last position is found. -/
theorem lookup_reverse_zipIdx (names : List String) (name : String) (i : Nat) :
    names.zipIdx.reverse.lookup name = some i ↔
      names[i]? = some name ∧ ∀ j, names[j]? = some name → j ≤ i := by
  -- Induction from the back: the fold inserted last what the lookup finds first.
  induction names using List.reverseRecOn with
  | nil => simp
  | append_singleton names last ih =>
    rw [List.zipIdx_append, List.reverse_append, List.zipIdx_singleton, List.reverse_singleton,
      List.singleton_append, List.lookup_cons, Nat.zero_add]
    by_cases hlast : name = last
    -- The last name is the one asked for: its index is the largest.
    · subst hlast
      rw [beq_self_eq_true]
      constructor
      · intro h
        cases h
        refine ⟨by simp, fun j hj => ?_⟩
        have hlt := (List.getElem?_eq_some_iff.mp hj).1
        rw [List.length_append, List.length_singleton] at hlt
        omega
      · rintro ⟨hi, hmax⟩
        have hlt := (List.getElem?_eq_some_iff.mp hi).1
        have hge := hmax names.length (by simp)
        rw [List.length_append, List.length_singleton] at hlt
        exact congrArg some (by omega)
    -- It is another one, which the lookup passes over.
    · rw [beq_false_of_ne hlast]
      dsimp only
      rw [ih]
      have hiff : ∀ j : Nat, (names ++ [last])[j]? = some name ↔ names[j]? = some name := by
        intro j
        rw [List.getElem?_append]
        split
        next => rfl
        next hge =>
          rw [List.getElem?_eq_none (Nat.le_of_not_lt hge), List.getElem?_singleton]
          split
          next => simp [Ne.symm hlast]
          next => rfl
      simp only [hiff]

/-- Some position is found for every name in the list. -/
theorem lookup_reverse_zipIdx_of_mem {names : List String} {name : String} (h : name ∈ names) :
    ∃ i, names.zipIdx.reverse.lookup name = some i := by
  cases hfound : names.zipIdx.reverse.lookup name with
  | some i => exact ⟨i, rfl⟩
  | none =>
    rw [List.lookup_eq_none_iff] at hfound
    obtain ⟨i, hi⟩ := List.getElem?_of_mem h
    have hmem : (name, i) ∈ names.zipIdx.reverse := by
      rw [List.mem_reverse, List.mem_zipIdx_iff_getElem?]
      exact hi
    exact absurd (hfound _ hmem) (by simp)

namespace GgufFile

variable {buf : List UInt8}

/-- The tensors are cut out one for each info; the names are inserted in order. -/
theorem sliceTensors_ok {base : Nat} {infos : List TensorInfo} {i : Nat} {byName byName' : BTreeMap Nat}
    {tensors : List GgufTensor} {c c' : Cursor}
    (h : (sliceTensors buf base i infos byName).eval c = (.ok (tensors, byName'), c')) :
    List.Forall₂ (GgufTensor.IsLoaded buf base) infos tensors ∧
      byName' = ((infos.map TensorInfo.name).zipIdx i).foldl (fun map e => map.insert e.1 e.2) byName := by
  induction infos generalizing i byName tensors c with
  | nil =>
    cases h
    exact ⟨.nil, rfl⟩
  | cons info infos ih =>
    -- Count the tensor, slice it, then the rest.
    obtain ⟨-, c₁, -, h⟩ := eval_bind_eq_ok.mp h
    obtain ⟨t, c₂, ht, h⟩ := eval_bind_eq_ok.mp h
    obtain ⟨⟨rest, byName₁⟩, c₃, hrest, h⟩ := eval_bind_eq_ok.mp h
    cases h
    rw [eval_lift] at ht
    obtain ⟨hall, hindex⟩ := ih hrest
    exact ⟨.cons (sliceTensor_ok (congrArg Prod.fst ht)) hall, hindex⟩

/-- What `parse` has done when it succeeds: the head read up to `c`, and the data placed at
`base`. -/
structure LoadedFrom (blob : List UInt8) (f : GgufFile) (infos : List TensorInfo) (c : Cursor) (base : Nat) :
    Prop where
  head : (readHead blob).eval Cursor.new = (.ok (f.version, f.metadata, infos), c)
  aligned : LeastAligned (alignmentOf f.metadata) c.pos base
  tensors : List.Forall₂ (GgufTensor.IsLoaded blob base) infos f.tensors
  byName : f.byName = (infos.map TensorInfo.name).zipIdx.foldl (fun map e => map.insert e.1 e.2) ∅

theorem parsed_ok {blob : List UInt8} {f : GgufFile} (h : parsed blob = .ok f) :
    ∃ infos c base, LoadedFrom blob f infos c base := by
  obtain ⟨c', hrun⟩ : ∃ c', (parse blob).eval Cursor.new = (.ok f, c') := ⟨_, Prod.ext h rfl⟩
  -- Behind the head come `align_up`, the seek, the reservation and the slices.
  obtain ⟨⟨version, metadata, infos⟩, c, hhead, hplace⟩ := eval_bind_eq_ok.mp hrun
  dsimp only [placeTensors] at hplace
  split at hplace
  next => cases hplace
  next hzero =>
    rw [eval_bind_ok (eval_state _)] at hplace
    obtain ⟨aligned, c₁, haligned, hplace⟩ := eval_bind_eq_ok.mp hplace
    obtain ⟨-, c₂, -, hplace⟩ := eval_bind_eq_ok.mp hplace
    obtain ⟨-, c₃, -, hplace⟩ := eval_bind_eq_ok.mp hplace
    obtain ⟨⟨tensors, byName⟩, c₄, hslices, hplace⟩ := eval_bind_eq_ok.mp hplace
    cases hplace
    rw [eval_lift] at haligned
    -- The base is the least multiple of the alignment behind the head.
    obtain ⟨units, hunits, hbase⟩ := bind_eq_ok.mp (congrArg Prod.fst haligned)
    obtain ⟨-, rfl⟩ := okOr_checked_eq_ok.mp hbase
    unfold divCeil at hunits
    rw [if_neg hzero] at hunits
    cases hunits
    obtain ⟨htensors, hindex⟩ := sliceTensors_ok hslices
    exact ⟨infos, c, _, hhead, leastAligned_divCeil (Nat.pos_of_ne_zero hzero), htensors, hindex⟩

section Loaded

variable {blob : List UInt8} {f : GgufFile} {infos : List TensorInfo} {c : Cursor} {base : Nat}

/-- Infos and tensors correspond, name by name. -/
private theorem forall₂_loaded {tensors : List GgufTensor}
    (h : List.Forall₂ (GgufTensor.IsLoaded blob base) infos tensors) :
    infos.map TensorInfo.name = tensors.map GgufTensor.name ∧
      ∀ t ∈ tensors, ∃ info, t.IsLoaded blob base info := by
  induction h with
  | nil => exact ⟨rfl, fun t hmem => absurd hmem List.not_mem_nil⟩
  | cons first rest ih =>
    obtain ⟨hnames, hall⟩ := ih
    refine ⟨by rw [List.map_cons, List.map_cons, hnames, first.same.1], fun t hmem => ?_⟩
    rcases List.mem_cons.mp hmem with rfl | hmem
    · exact ⟨_, first⟩
    · exact hall t hmem

theorem LoadedFrom.lookup (h : LoadedFrom blob f infos c base) (name : String) :
    f.byName[name]? = (f.tensors.map GgufTensor.name).zipIdx.reverse.lookup name := by
  have hlooked := getElem?_foldl_insert (infos.map TensorInfo.name).zipIdx name ∅
  rw [← h.byName, (forall₂_loaded h.tensors).1] at hlooked
  simpa using hlooked

theorem LoadedFrom.indexed (h : LoadedFrom blob f infos c base) : f.Indexed := by
  refine ⟨fun name i hi => ?_, fun t hmem => ?_⟩
  · rw [h.lookup, lookup_reverse_zipIdx] at hi
    obtain ⟨hhere, hlast⟩ := hi
    rw [List.getElem?_map, Option.map_eq_some_iff] at hhere
    obtain ⟨t, ht, hname⟩ := hhere
    refine ⟨t, ht, hname, fun j t' ht' hname' => hlast j ?_⟩
    rw [List.getElem?_map, ht', Option.map_some, hname']
  · obtain ⟨i, hi⟩ := lookup_reverse_zipIdx_of_mem (List.mem_map_of_mem (f := GgufTensor.name) hmem)
    exact ⟨i, by rw [h.lookup, hi]⟩

end Loaded

end GgufFile

/-- The decoder of a type takes whole blocks of it, and returns as many elements as they hold, unless no
vector holds them. -/
theorem GgufTensorType.dequantizer_whole {F : Type} [F32 F] {dtype : GgufTensorType} {per size n : Nat}
    {bytes : List UInt8} {decode : List UInt8 → Res (List F)} (hdecode : dtype.dequantizer F = some decode)
    (hblock : dtype.block = some (per, size)) (hwhole : n % per = 0) (hlength : bytes.length = n / per * size) :
    (n * 4 < 2 ^ 63 → ∃ out, decode bytes = .ok out ∧ out.length = n) ∧
      (2 ^ 63 ≤ n * 4 → decode bytes = panic .capacityOverflow) := by
  have hcount : ∀ {per' size' : Nat} {ragged : String} {weights : Vector UInt8 size' → List F},
      (∀ block, (weights block).length = per') → 0 < size' → per' = per → size' = size →
        (n * 4 < 2 ^ 63 → ∃ out, VitniTensor.dequantize size' per' ragged weights bytes = .ok out ∧
            out.length = n) ∧
          (2 ^ 63 ≤ n * 4 → VitniTensor.dequantize size' per' ragged weights bytes = panic .capacityOverflow) := by
    -- Whole blocks on the bytes' side too, and as many of them as on the elements' side.
    rintro per' size' ragged weights hweights hsize rfl rfl
    have hblocks : bytes.length % size' = 0 := by rw [hlength, Nat.mul_mod_left]
    have hnumel : bytes.length / size' * per' = n := by
      rw [hlength, Nat.mul_div_cancel _ hsize, Nat.div_mul_cancel (Nat.dvd_of_mod_eq_zero hwhole)]
    refine ⟨fun hmemory => ?_, fun hlarge => dequantize_large hblocks (by rwa [hnumel])⟩
    obtain ⟨out, hout, hlen⟩ : ∃ out, VitniTensor.dequantize size' per' ragged weights bytes = .ok out ∧
        out.length = bytes.length / size' * per' := dequantize_ok hweights hblocks (by rwa [hnumel])
    exact ⟨out, hout, hlen.trans hnumel⟩
  cases dtype with
  -- The dense types and the unknown ones have no dequantizer here.
  | f32 | f16 | other raw => cases hdecode
  | q4_0 =>
    cases hdecode
    cases hblock
    exact hcount length_q4_0Weights (by decide) rfl rfl
  | q5_0 =>
    cases hdecode
    cases hblock
    exact hcount length_q5_0Weights (by decide) rfl rfl
  | q8_0 =>
    cases hdecode
    cases hblock
    exact hcount length_q8_0Weights (by decide) rfl rfl
  | q4_k =>
    cases hdecode
    cases hblock
    exact hcount length_q4kWeights (by decide) rfl rfl
  | q6_k =>
    cases hdecode
    cases hblock
    exact hcount length_q6kWeights (by decide) rfl rfl

/-- The bytes of a loaded tensor are whole blocks of its type, as many as its elements need. -/
theorem GgufTensor.IsLoaded.dequantize {F : Type} [F32 F] {blob : List UInt8} {base : Nat}
    {info : TensorInfo} {t : GgufTensor} (h : t.IsLoaded blob base info)
    {decode : List UInt8 → Res (List F)} (hdecode : t.dtype.dequantizer F = some decode) :
    (numelOf t.shape * 4 < 2 ^ 63 → ∃ out, decode t.bytes = .ok out ∧ out.length = numelOf t.shape) ∧
      (2 ^ 63 ≤ numelOf t.shape * 4 → decode t.bytes = panic .capacityOverflow) := by
  obtain ⟨per, size, hblock, hwhole, hinside, hbytes⟩ := h.bytes
  apply GgufTensorType.dequantizer_whole hdecode hblock hwhole
  rw [hbytes, List.length_take, List.length_drop]
  omega

namespace GgufFile

/-- **Loaded tensors are well-formed.** In a file that parses, every tensor is the byte range of
its info behind the aligned end of the tensor infos, of the exact size of its shape and type; its
count of elements did not saturate; its block decoder returns exactly that many, or panics if no
vector holds them; and the index leads every name to its last tensor. -/
theorem parse_loaded (F : Type) [F32 F] (blob : List UInt8) (f : GgufFile) (h : parsed blob = .ok f) :
    ∃ infos c base, LoadedFrom blob f infos c base ∧ f.Indexed ∧
      ∀ t ∈ f.tensors, t.numel = numelOf t.shape ∧
        (∃ per size, t.dtype.block = some (per, size) ∧ numelOf t.shape % per = 0 ∧
          t.bytes.length = numelOf t.shape / per * size) ∧
        ∀ decode, t.dtype.dequantizer F = some decode →
          (t.numel * 4 < 2 ^ 63 → ∃ out, decode t.bytes = .ok out ∧ out.length = t.numel) ∧
            (2 ^ 63 ≤ t.numel * 4 → decode t.bytes = panic .capacityOverflow) := by
  obtain ⟨infos, c, base, hloaded⟩ := parsed_ok h
  refine ⟨infos, c, base, hloaded, hloaded.indexed, fun t hmem => ?_⟩
  obtain ⟨info, ht⟩ := (forall₂_loaded hloaded.tensors).2 t hmem
  obtain ⟨per, size, hblock, hwhole, hinside, hbytes⟩ := ht.bytes
  refine ⟨ht.numel, ⟨per, size, hblock, hwhole, ?_⟩, fun decode hdecode => ?_⟩
  -- The range lies inside the blob, so the cut is as long as the range.
  · rw [hbytes, List.length_take, List.length_drop]
    omega
  · rw [ht.numel]
    exact ht.dequantize hdecode

/-- Two tensors of blocks under one name. -/
def blocksSample : GgufModel where
  version := 2
  entries := []
  infos := [⟨"w", [32], .q4_0, 0⟩, ⟨"w", [32, 2], .q8_0, 18⟩]
  data := (List.range 86).map UInt8.ofNat

theorem wellFormed_blocksSample : blocksSample.WellFormed := by
  refine ⟨by decide, nofun, fun info mem => ?_, by decide +kernel⟩
  simp only [blocksSample, List.mem_cons, List.not_mem_nil, or_false] at mem
  rcases mem with rfl | rfl
  · exact ⟨by unfold ShortString; decide, by decide, ⟨32, 18, rfl, by decide⟩, by decide⟩
  · exact ⟨by unfold ShortString; decide, by decide, ⟨32, 34, rfl, by decide⟩, by decide⟩

theorem parsed_blocksSample : parsed blocksSample.write = .ok (fileOf blocksSample) := by
  refine parsed_write wellFormed_blocksSample (fun info mem k le => ?_) (by decide) (by decide)
  simp only [blocksSample, List.mem_cons, List.not_mem_nil, or_false] at mem
  rcases mem with rfl | rfl
  · have bound : k ≤ 1 := le
    interval_cases k <;> decide
  · have bound : k ≤ 2 := le
    interval_cases k <;> decide

theorem parse_loaded_blocks :
    (fileOf blocksSample).byName["w"]? = some 1 ∧ (fileOf blocksSample).Indexed ∧
      ∀ t ∈ (fileOf blocksSample).tensors, ∃ decode out,
        t.dtype.dequantizer Float32 = some decode ∧ decode t.bytes = .ok out ∧ out.length = t.numel := by
  obtain ⟨_, _, _, _, hindexed, htensors⟩ :=
    parse_loaded Float32 blocksSample.write (fileOf blocksSample) parsed_blocksSample
  refine ⟨by decide, hindexed, fun t hmem => ?_⟩
  obtain ⟨-, -, hdecode⟩ := htensors t hmem
  rw [show (fileOf blocksSample).tensors = [⟨"w", [32], .q4_0, _⟩, ⟨"w", [32, 2], .q8_0, _⟩] from rfl] at hmem
  simp only [List.mem_cons, List.not_mem_nil, or_false] at hmem
  rcases hmem with rfl | rfl
  · obtain ⟨out, hout⟩ := (hdecode _ rfl).1 (by decide)
    exact ⟨_, out, rfl, hout⟩
  · obtain ⟨out, hout⟩ := (hdecode _ rfl).1 (by decide)
    exact ⟨_, out, rfl, hout⟩

/-! ### A tensor that no vector of floats holds -/

/-- One tensor of `n` blocks of four bits. -/
def nibbles (n : Nat) : GgufModel where
  version := 3
  entries := []
  infos := [⟨"w", [UInt64.ofNat (n * 32)], .q4_0, 0⟩]
  data := List.replicate (n * 18) 0

section Nibbles

variable {n : Nat}

theorem numelOf_nibbles (hn : n < 2 ^ 57) : numelOf [UInt64.ofNat (n * 32)] = n * 32 := by
  rw [numelOf, List.map_singleton, List.prod_singleton, UInt64.toNat_ofNat', Nat.mod_eq_of_lt (by omega)]

theorem wellFormed_nibbles (hn : n < 2 ^ 57) : (nibbles n).WellFormed := by
  have hnumel := numelOf_nibbles hn
  have hhead : (nibbles n).writeHead.length = 57 := by
    simp only [GgufModel.writeHead, GgufModel.writeInfo, GgufModel.writeString, Codec.blob, nibbles, List.length_append,
      List.flatMap_cons, List.flatMap_nil, List.length_nil, LittleEndian.length_toBytes, magic, List.length_cons]
    rfl
  have halign : (nibbles n).alignment = 32 := rfl
  refine ⟨.inr rfl, fun _ mem => absurd mem List.not_mem_nil, fun info mem => ?_, ?_⟩
  -- One tensor of 32 n nibbles, 18 bytes for each 32.
  · obtain rfl := List.mem_singleton.mp mem
    have hname : ShortString "w" := by
      unfold ShortString
      decide
    refine ⟨hname, Nat.le_of_ble_eq_true rfl, ⟨32, 18, rfl, ?_⟩, ?_⟩
    · rw [hnumel, Nat.mul_mod_left]
    · change 0 + numelOf [UInt64.ofNat (n * 32)] / 32 * 18 ≤ (List.replicate (n * 18) (0 : UInt8)).length
      rw [hnumel, List.length_replicate]
      omega
  -- Head, padding and data together stay below 2 ^ 63.
  · have hdata : (nibbles n).data.length = n * 18 := List.length_replicate
    rw [GgufModel.write, List.length_append, List.length_append, hhead, List.length_replicate, hdata,
      GgufModel.base, hhead, halign]
    omega

theorem parsed_nibbles (hn : n < 2 ^ 57) : parsed (nibbles n).write = .ok (fileOf (nibbles n)) := by
  refine parsed_write (wellFormed_nibbles hn) (fun info mem k le => ?_) nofun (by decide : 1 * 72 < 2 ^ 63)
  obtain rfl := List.mem_singleton.mp mem
  have bound : k ≤ 1 := le
  interval_cases k
  · exact (by decide : 1 < 2 ^ 64)
  · rw [show [UInt64.ofNat (n * 32)].take 1 = [UInt64.ofNat (n * 32)] from rfl, numelOf_nibbles hn]
    omega

end Nibbles

/-- The decoder panics on a tensor of `2 ^ 61` elements in a file of about `2 ^ 60` bytes. -/
theorem parse_loaded_limit :
    ¬∀ (blob : List UInt8) (f : GgufFile), blob.length < 2 ^ 63 → parsed blob = .ok f →
      ∀ t ∈ f.tensors, ∀ decode, t.dtype.dequantizer Float32 = some decode →
        ∃ out, decode t.bytes = .ok out ∧ out.length = t.numel := by
  intro hclaim
  -- the number stays a variable, so that nothing is computed
  obtain ⟨n, hn⟩ : ∃ n : Nat, n = 2 ^ 56 := ⟨_, rfl⟩
  have hparsed := parsed_nibbles (n := n) (by omega)
  obtain ⟨_, _, _, hloaded⟩ := parsed_ok hparsed
  obtain ⟨t, hmem⟩ : ∃ t, t ∈ (fileOf (nibbles n)).tensors := ⟨_, List.mem_cons_self⟩
  obtain ⟨info, ht⟩ := (forall₂_loaded hloaded.tensors).2 t hmem
  obtain rfl := List.mem_singleton.mp hmem
  obtain ⟨out, hout, -⟩ := hclaim _ _ (wellFormed_nibbles (by omega)).size hparsed _ hmem _ rfl
  rw [(ht.dequantize rfl).2 (by
    change 2 ^ 63 ≤ numelOf [UInt64.ofNat (n * 32)] * 4
    rw [numelOf_nibbles (by omega)]
    omega)] at hout
  cases hout

end GgufFile

end VitniTensor
