import VitniTensor.Gguf.Writer
import Mathlib.Tactic.IntervalCases

/-!
# The parser reads back what the writer wrote

A reader decodes a word when, standing in front of it anywhere in the buffer, it returns
the value and stands behind the word. Decoding composes along concatenation, so each
reader is matched once with its writer, and the file is assembled from the parts.
-/

namespace VitniTensor

open Outcome Exec LittleEndian

namespace Cursor

variable {α β : Type} {buf : List UInt8}

/-- The buffer continues with `word` from position `pos` on. -/
def Ahead (buf : List UInt8) (pos : Nat) (word : List UInt8) : Prop :=
  ∃ before rest, buf = before ++ (word ++ rest) ∧ before.length = pos

theorem Ahead.split {pos : Nat} {u v : List UInt8} (h : Ahead buf pos (u ++ v)) :
    Ahead buf pos u ∧ Ahead buf (pos + u.length) v := by
  obtain ⟨before, rest, eq, len⟩ := h
  refine ⟨⟨before, v ++ rest, ?_, len⟩, ⟨before ++ u, rest, ?_, ?_⟩⟩
  · rw [eq, List.append_assoc]
  · rw [eq, List.append_assoc, List.append_assoc]
  · rw [List.length_append, len]

theorem Ahead.bound {pos : Nat} {word : List UInt8} (h : Ahead buf pos word) :
    pos + word.length ≤ buf.length := by
  obtain ⟨before, rest, eq, len⟩ := h
  have total := congrArg List.length eq
  simp only [List.length_append] at total
  omega

/-- Slicing the buffer at the word gives the word. -/
theorem Ahead.slice {pos : Nat} {word : List UInt8} (h : Ahead buf pos word) :
    Outcome.slice (ε := Error) buf pos (pos + word.length) = .ok word := by
  have bound := h.bound
  obtain ⟨before, rest, eq, len⟩ := h
  rw [slice_of_le (Nat.le_add_right _ _) bound, eq, ← len, List.drop_left,
    Nat.add_sub_cancel_left, List.take_left]

/-- In front of `word` the reader returns `a` and moves behind it. -/
def Decodes (buf : List UInt8) (m : Parse α) (word : List UInt8) (a : α) : Prop :=
  ∀ c, Ahead buf c.pos word → ∃ w, m.eval c = (.ok a, ⟨c.pos + word.length, w⟩)

theorem Decodes.pure (a : α) : Decodes buf (Pure.pure a) [] a :=
  fun c _ => ⟨c.work, rfl⟩

theorem Decodes.lift {x : Res α} {a : α} (eq : x = .ok a) : Decodes buf (Exec.lift x) [] a := by
  subst eq
  exact fun c _ => ⟨c.work, rfl⟩

/-- A step that only keeps the books. -/
theorem Decodes.count {f : Cursor → Cursor} (still : ∀ c, (f c).pos = c.pos) :
    Decodes buf (update f) [] () := by
  intro c _
  refine ⟨(f c).work, ?_⟩
  rw [eval_update, List.length_nil, Nat.add_zero, ← still c]

theorem Decodes.bind {m : Parse α} {f : α → Parse β} {u v : List UInt8} {a : α} {b : β}
    (first : Decodes buf m u a) (next : Decodes buf (f a) v b) :
    Decodes buf (m >>= f) (u ++ v) b := by
  intro c ahead
  obtain ⟨here, there⟩ := ahead.split
  obtain ⟨w, run⟩ := first c here
  obtain ⟨w', run'⟩ := next ⟨c.pos + u.length, w⟩ there
  refine ⟨w', ?_⟩
  rw [eval_bind_ok run, run', List.length_append, Nat.add_assoc]

/-- A step that reads nothing in front. -/
theorem Decodes.skip {m : Parse α} {f : α → Parse β} {v : List UInt8} {a : α} {b : β}
    (first : Decodes buf m [] a) (next : Decodes buf (f a) v b) : Decodes buf (m >>= f) v b :=
  first.bind next

theorem decodes_reserve {r : Reservation} (fits : r.count * r.size < 2 ^ 63) : Decodes buf (reserve r) [] () := by
  unfold reserve
  refine Decodes.skip (a := ()) (Decodes.count fun c => rfl) ?_
  exact Decodes.lift (withCapacity_of_lt fits)

/-- Returning something made of the value read. -/
theorem Decodes.map {m : Parse α} {f : α → β} {u : List UInt8} {a : α} (first : Decodes buf m u a) :
    Decodes buf (m >>= fun a => Pure.pure (f a)) u (f a) := by
  have both := first.bind (f := fun a => Pure.pure (f a)) (Decodes.pure (f a))
  rwa [List.append_nil] at both

section Small

variable (small : buf.length < 2 ^ 63)
include small

theorem decodes_readN (word : List UInt8) : Decodes buf (readN buf word.length) word word := by
  intro c ahead
  have bound := ahead.bound
  have fits : c.pos + word.length < wordSize := by
    unfold wordSize
    omega
  have inside : ¬c.pos + word.length > buf.length := by omega
  refine ⟨c.work, ?_⟩
  unfold readN
  rw [eval_bind_ok (eval_state c), checked, if_pos fits, okOr_some, lift_ok, pure_bind,
    if_neg inside, ahead.slice, lift_ok, pure_bind]
  rfl

/-- A fixed-width word and its conversion. -/
theorem decodes_convert {f : List UInt8 → Parse α} {w : List UInt8} {a : α}
    (converts : f w = Pure.pure a) : Decodes buf (readN buf w.length >>= f) w a := by
  have both := (decodes_readN small w).bind (f := f) (v := []) (b := a)
    (by rw [converts]; exact Decodes.pure a)
  rwa [List.append_nil] at both

omit small in
private theorem fromLeBytes_toBytes {n v : Nat} (h : v < 256 ^ n) :
    fromLeBytes n (toBytes n v) = .ok v := by
  have all : Outcome.slice (ε := Error) (toBytes n v) 0 n = .ok (toBytes n v) := by
    rw [slice_of_le (Nat.zero_le n) (by rw [length_toBytes]), List.drop_zero, Nat.sub_zero]
    rw [List.take_of_length_le (by rw [length_toBytes])]
  unfold fromLeBytes
  rw [all, ok_bind, ofBytes_toBytes h]
  rfl

theorem decodes_readU32 (v : UInt32) : Decodes buf (readU32 buf) (toBytes 4 v.toNat) v := by
  have bound : v.toNat < 256 ^ 4 := v.toNat_lt
  have word := decodes_convert small (w := toBytes 4 v.toNat) (a := v)
    (f := fun s => do let v ← lift (fromLeBytes 4 s); Pure.pure (UInt32.ofNat v))
    (by rw [fromLeBytes_toBytes bound, lift_ok, pure_bind, UInt32.ofNat_toNat])
  rwa [length_toBytes] at word

theorem decodes_readU64 (v : UInt64) : Decodes buf (readU64 buf) (toBytes 8 v.toNat) v := by
  have bound : v.toNat < 256 ^ 8 := v.toNat_lt
  have word := decodes_convert small (w := toBytes 8 v.toNat) (a := v)
    (f := fun s => do let v ← lift (fromLeBytes 8 s); Pure.pure (UInt64.ofNat v))
    (by rw [fromLeBytes_toBytes bound, lift_ok, pure_bind, UInt64.ofNat_toNat])
  rwa [length_toBytes] at word

theorem decodes_readU16 (v : UInt16) : Decodes buf (readU16 buf) (toBytes 2 v.toNat) v := by
  have bound : v.toNat < 256 ^ 2 := v.toNat_lt
  have word := decodes_convert small (w := toBytes 2 v.toNat) (a := v)
    (f := fun s => do let v ← lift (fromLeBytes 2 s); Pure.pure (UInt16.ofNat v))
    (by rw [fromLeBytes_toBytes bound, lift_ok, pure_bind, UInt16.ofNat_toNat])
  rwa [length_toBytes] at word

theorem decodes_readByte (b : UInt8) : Decodes buf (readByte buf) [b] b :=
  decodes_convert small (w := [b]) (f := fun s => lift (index s 0)) rfl

/-- A count or a length that the writer widened to `u64`. -/
theorem decodes_readU64_nat {n : Nat} (h : n < 2 ^ 64) :
    Decodes buf (readU64 buf) (toBytes 8 n) (UInt64.ofNat n) := by
  have word := decodes_readU64 small (UInt64.ofNat n)
  rwa [UInt64.toNat_ofNat_of_lt' h] at word

theorem decodes_readString {s : String} (short : ShortString s) :
    Decodes buf (readString buf) (GgufModel.writeString s) s := by
  have len : s.asBytes.length ≤ 2 ^ 20 := short
  have fits : s.asBytes.length < 2 ^ 64 := by omega
  refine (decodes_readU64_nat small fits).bind ?_
  rw [UInt64.toNat_ofNat_of_lt' fits, if_neg (Nat.not_lt.mpr len)]
  exact decodes_convert small (by rw [String.ofBytes?_asBytes, okOr_some, lift_ok])

/-! ### Arrays -/

theorem decodes_skipStrings (strings : List (List UInt8)) (short : ∀ s ∈ strings, s.length < 2 ^ 64) :
    Decodes buf (skipStrings buf strings.length)
      (strings.flatMap (Codec.blob (toBytes 8))) () := by
  induction strings with
  | nil => exact Decodes.pure ()
  | cons s strings ih =>
    have rest := ih fun t mem => short t (List.mem_cons_of_mem _ mem)
    have fits : s.length < 2 ^ 64 := short s List.mem_cons_self
    rw [List.flatMap_cons, List.length_cons, skipStrings, Codec.blob, List.append_assoc]
    refine Decodes.skip (a := ()) (Decodes.count fun c => rfl) ?_
    refine (decodes_readU64_nat small fits).bind ?_
    -- the contents are skipped by moving the position
    intro c ahead
    obtain ⟨here, there⟩ := ahead.split
    have bound := here.bound
    have inside : c.pos + s.length < wordSize := by
      unfold wordSize
      omega
    obtain ⟨w, run⟩ := rest ⟨c.pos + s.length, c.work⟩ there
    refine ⟨w, ?_⟩
    rw [eval_bind_ok (eval_state c), UInt64.toNat_ofNat_of_lt' fits, checked, if_pos inside,
      okOr_some, lift_ok, pure_bind, seek, eval_bind_ok (eval_update _ c),
      if_neg (Nat.not_lt.mpr bound), run, List.length_append, Nat.add_assoc]

theorem decodes_skipElems {elemType : GgufValueType} {len : UInt64} {data : List UInt8} {size : Nat}
    (fixed : elemType.elemSize = some size) (total : data.length = len.toNat * size) :
    Decodes buf (skipElems buf elemType len) data () := by
  intro c ahead
  have bound := ahead.bound
  -- Neither checked product nor checked sum can wrap: the bytes are inside the buffer.
  have fits : len.toNat * size < wordSize := by
    unfold wordSize
    omega
  have inside : c.pos + len.toNat * size < wordSize := by
    unfold wordSize
    omega
  refine ⟨c.work, ?_⟩
  unfold skipElems
  rw [fixed, okOr_some, lift_ok, pure_bind, checked, if_pos fits, okOr_some, lift_ok, pure_bind,
    eval_bind_ok (eval_state c), checked, if_pos inside, okOr_some, lift_ok, pure_bind,
    if_neg (by omega), total]
  rfl

omit small in
/-- The packed bytes are what lies between the two positions. -/
private theorem decodes_packed {m : Parse Unit} {data : List UInt8} (f : List UInt8 → α)
    (skips : Decodes buf m data ()) :
    Decodes buf (do
      let start ← state
      m
      let stop ← state
      let data ← lift (slice buf start.pos stop.pos)
      Pure.pure (f data)) data (f data) := by
  intro c ahead
  obtain ⟨w, run⟩ := skips c ahead
  refine ⟨w, ?_⟩
  rw [eval_bind_ok (eval_state c), eval_bind_ok run, eval_bind_ok (eval_state _), ahead.slice,
    lift_ok, pure_bind]
  rfl

theorem decodes_readArray {a : GgufArray} (packed : a.Packed) :
    Decodes buf (readArray buf) (GgufModel.writeArray a) a := by
  obtain ⟨elemType, len, data⟩ := a
  refine (decodes_readU32 small elemType.toU32).bind ?_
  rw [GgufValueType.fromU32_toU32, okOr_some, lift_ok, pure_bind]
  unfold GgufArray.Packed at packed
  -- The cases of `skip_elems`: a fixed element size, else strings or a refused nested array.
  split at packed
  next size fixed =>
    dsimp only at fixed packed
    have primitive : elemType ≠ .array ∧ elemType ≠ .string := by
      constructor <;> rintro rfl <;> simp [GgufValueType.elemSize] at fixed
    rw [if_neg primitive.1]
    refine (decodes_readU64 small len).bind ?_
    simp only [if_neg primitive.2]
    have elems := decodes_skipElems small fixed packed
    exact decodes_packed (GgufArray.mk elemType len) elems
  next variable_ =>
    -- No fixed size: well-formedness leaves only an array of strings.
    obtain ⟨rfl, strings, count, short, eq⟩ := packed
    dsimp only at count eq
    rw [if_neg (by decide)]
    refine (decodes_readU64 small len).bind ?_
    simp only [if_true]
    rw [← count, eq]
    exact decodes_packed (GgufArray.mk .string len) (decodes_skipStrings small strings short)

/-! ### Values and entries -/

theorem decodes_readValue {v : GgufValue} (well : v.WellFormed) :
    Decodes buf (readValue buf v.type) (GgufModel.writeValue v) v := by
  cases v with
  | u8 v => exact (decodes_readByte small v).map
  | i8 v => exact (decodes_readByte small v.toUInt8).map
  | u16 v => exact (decodes_readU16 small v).map
  | i16 v => exact (decodes_readU16 small v.toUInt16).map
  | u32 v => exact (decodes_readU32 small v).map
  | i32 v => exact (decodes_readU32 small v.toUInt32).map
  | f32 bits => exact (decodes_readU32 small bits).map
  -- The writer's byte of a boolean is 0 or 1, so `v != 0` reads it back.
  | bool b =>
    cases b with
    | false => exact (decodes_readByte small 0).map
    | true => exact (decodes_readByte small 1).map
  | string s => exact (decodes_readString small well).map
  | u64 v => exact (decodes_readU64 small v).map
  | i64 v => exact (decodes_readU64 small v.toUInt64).map
  | f64 bits => exact (decodes_readU64 small bits).map
  | array a => exact (decodes_readArray small well).map

end Small

end Cursor

namespace GgufFile

open Cursor GgufModel

variable {buf : List UInt8}

section Small

variable (small : buf.length < 2 ^ 63)
include small

theorem decodes_readEntry {e : String × GgufValue} (key : ShortString e.1) (value : e.2.WellFormed) :
    Decodes buf (readEntry buf) (writeEntry e) e := by
  refine (decodes_readString small key).bind ?_
  refine (decodes_readU32 small e.2.type.toU32).bind ?_
  rw [GgufValueType.fromU32_toU32, okOr_some, lift_ok, pure_bind]
  exact (decodes_readValue small value).map (f := fun value => (e.1, value))

theorem decodes_readMetadata (entries : List (String × GgufValue)) :
    (∀ e ∈ entries, ShortString e.1 ∧ e.2.WellFormed) → ∀ metadata : BTreeMap GgufValue,
      Decodes buf (readMetadata buf entries.length metadata) (entries.flatMap writeEntry)
        (entries.foldl (fun map e => map.insert e.1 e.2) metadata) := by
  induction entries with
  | nil => exact fun _ metadata => Decodes.pure metadata
  | cons e entries ih =>
    intro well metadata
    have here := well e List.mem_cons_self
    have rest := ih (fun d mem => well d (List.mem_cons_of_mem _ mem)) (metadata.insert e.1 e.2)
    rw [List.flatMap_cons, List.length_cons, List.foldl_cons, readMetadata]
    refine Decodes.skip (a := ()) (Decodes.count fun c => rfl) ?_
    exact (decodes_readEntry small here.1 here.2).bind rest

theorem decodes_readDims (shape : List UInt64) :
    Decodes buf (readDims buf shape.length) (shape.flatMap fun dim => toBytes 8 dim.toNat) shape := by
  induction shape with
  | nil => exact Decodes.pure []
  | cons dim shape ih =>
    rw [List.flatMap_cons, List.length_cons, readDims]
    refine Decodes.skip (a := ()) (Decodes.count fun c => rfl) ?_
    exact (decodes_readU64 small dim).bind (ih.map (f := fun rest => dim :: rest))

theorem decodes_readTensorInfo {data : List UInt8} {info : TensorInfo}
    (well : info.WellFormed data) : Decodes buf (readTensorInfo buf) (writeInfo info) info := by
  obtain ⟨name, shape, dtype, offset⟩ := info
  have rank : shape.length ≤ 8 := well.rank
  have fits : (UInt32.ofNat shape.length).toNat = shape.length := by
    rw [UInt32.toNat_ofNat_of_lt' (by unfold UInt32.size; omega)]
  have known : ∀ raw, dtype ≠ .other raw := by
    rintro raw rfl
    obtain ⟨per, size, block, -⟩ := well.blocks
    simp [GgufTensorType.block] at block
  have dims := decodes_readU32 small (UInt32.ofNat shape.length)
  -- The writer's rank is read back as itself, so the check against `MAX_RANK` lets it pass.
  rw [fits] at dims
  refine (decodes_readString small well.name).bind (dims.bind ?_)
  rw [fits, if_neg (Nat.not_lt.mpr rank)]
  refine (decodes_reserve (by dsimp only; omega)).skip ?_
  refine (decodes_readDims small shape).bind ?_
  refine (decodes_readU32 small dtype.toU32).bind ?_
  rw [GgufTensorType.fromU32_toU32 known]
  exact (decodes_readU64 small offset).map (f := fun offset => TensorInfo.mk name shape dtype offset)

theorem decodes_readTensorInfos {data : List UInt8} (infos : List TensorInfo)
    (well : ∀ info ∈ infos, info.WellFormed data) :
    Decodes buf (readTensorInfos buf infos.length) (infos.flatMap writeInfo) infos := by
  induction infos with
  | nil => exact Decodes.pure []
  | cons info infos ih =>
    have here := well info List.mem_cons_self
    have rest := ih fun i mem => well i (List.mem_cons_of_mem _ mem)
    rw [List.flatMap_cons, List.length_cons, readTensorInfos]
    refine Decodes.skip (a := ()) (Decodes.count fun c => rfl) ?_
    exact (decodes_readTensorInfo small here).bind (rest.map (f := fun rest => info :: rest))

end Small

/-- A list that writes at least one byte an item is no longer than what it writes. -/
private theorem length_le_flatMap {α : Type} (code : α → List UInt8)
    (pos : ∀ x, 0 < (code x).length) (xs : List α) : xs.length ≤ (xs.flatMap code).length := by
  induction xs with
  | nil => exact Nat.le_refl _
  | cons x xs ih =>
    have first := pos x
    rw [List.flatMap_cons, List.length_append, List.length_cons]
    omega

private theorem writeString_pos (s : String) : 0 < (writeString s).length := by
  simp only [writeString, Codec.blob, List.length_append, length_toBytes]
  omega

/-- The two counts of a file that fits in memory fit in `u64`. -/
theorem counts_fit {m : GgufModel} (size : m.write.length < 2 ^ 63) :
    m.infos.length < 2 ^ 64 ∧ m.entries.length < 2 ^ 64 := by
  have entries := length_le_flatMap writeEntry
    (fun e => by have := writeString_pos e.1; simp only [writeEntry, List.length_append]; omega)
    m.entries
  have infos := length_le_flatMap writeInfo
    (fun i => by have := writeString_pos i.name; simp only [writeInfo, List.length_append]; omega)
    m.infos
  simp only [write, writeHead, List.length_append] at size
  omega

/-- The metadata map that the parser builds. -/
def metadataOf (m : GgufModel) : BTreeMap GgufValue :=
  m.entries.foldl (fun map e => map.insert e.1 e.2) ∅

theorem decodes_readHead {m : GgufModel} (well : m.WellFormed) (reserved : m.TensorsFit)
    (small : buf.length < 2 ^ 63) :
    Decodes buf (readHead buf) m.writeHead (m.version, metadataOf m, m.infos) := by
  obtain ⟨infosFit, entriesFit⟩ := counts_fit well.size
  have supported : m.version ∈ supportedVersions := by
    rcases well.version with two | three
    · rw [two]; decide
    · rw [three]; decide
  refine (decodes_readN small magic).bind ?_
  rw [if_neg (not_not_intro rfl)]
  refine (decodes_readU32 small m.version).bind ?_
  rw [if_neg (not_not_intro supported)]
  refine (decodes_readU64_nat small infosFit).bind ?_
  refine (decodes_readU64_nat small entriesFit).bind ?_
  rw [UInt64.toNat_ofNat_of_lt' infosFit, UInt64.toNat_ofNat_of_lt' entriesFit]
  refine (decodes_readMetadata small m.entries well.entries ∅).bind ?_
  -- the capacity depends on the position, which the reservation leaves alone
  intro c ahead
  have quotient := Nat.div_le_self (buf.length - c.pos) minTensorInfoBytes
  have fits : (buf.length - c.pos) / minTensorInfoBytes + 1 < wordSize := by
    unfold wordSize
    omega
  rw [eval_bind_ok (eval_state c)]
  dsimp only
  rw [word_of_lt fits, lift_ok, pure_bind]
  have infos := (decodes_readTensorInfos small m.infos well.infos).map
    (f := fun infos => (m.version, metadataOf m, infos))
  have granted : min m.infos.length ((buf.length - c.pos) / minTensorInfoBytes + 1) * infoSize < 2 ^ 63 := by
    have fewer := Nat.min_le_left m.infos.length ((buf.length - c.pos) / minTensorInfoBytes + 1)
    unfold GgufModel.TensorsFit tensorSize at reserved
    unfold infoSize
    omega
  exact (decodes_reserve granted).skip (f := fun _ => readTensorInfos buf m.infos.length >>= fun infos =>
    pure (m.version, metadataOf m, infos)) infos c ahead

/-! ### Placing the tensors -/

/-- Inserting a list of pairs leaves the last value of each key. -/
theorem getElem?_foldl_insert {V : Type} (pairs : List (String × V)) (key : String) :
    ∀ map : BTreeMap V, (pairs.foldl (fun map e => map.insert e.1 e.2) map)[key]? =
      (pairs.reverse.lookup key).or map[key]? := by
  induction pairs with
  | nil => intro map; simp
  | cons e pairs ih =>
    obtain ⟨name, v⟩ := e
    intro map
    rw [List.foldl_cons, ih, List.reverse_cons, List.lookup_append, Option.or_assoc,
      Std.TreeMap.getElem?_insert]
    congr 1
    -- The last entry of a key wins: the fold inserts in file order, the lookup reads it
    -- backwards.
    by_cases same : key = name
    · simp [same]
    · have differ : name ≠ key := fun eq => same eq.symm
      have unequal : (key == name) = false := beq_false_of_ne same
      simp [List.lookup_cons, differ, unequal]

theorem checkedNumel_eq {shape : List UInt64}
    (fits : ∀ k ≤ shape.length, numelOf (shape.take k) < 2 ^ 64) :
    checkedNumel shape = .ok (numelOf shape) := by
  -- Generalised over the accumulator; the bound at each prefix is what `checked_mul` asks for.
  have fold : ∀ (shape : List UInt64) (acc : Nat),
      (∀ k ≤ shape.length, acc * numelOf (shape.take k) < 2 ^ 64) →
        (shape.foldlM (fun numel dim => okOr (checked (numel * dim.toNat))
          (Error.overflow "gguf: shape product overflows u64")) acc : Res Nat) =
            .ok (acc * numelOf shape) := by
    intro shape
    induction shape with
    | nil => intro acc _; simp [numelOf, pure, Except.pure]
    | cons dim shape ih =>
      intro acc fits
      have first : acc * dim.toNat < wordSize := by
        have := fits 1 (by simp)
        change acc * dim.toNat < 2 ^ 64
        simpa [numelOf] using this
      have rest := ih (acc * dim.toNat) fun k le => by
        have := fits (k + 1) (by simpa using le)
        simpa [numelOf, Nat.mul_assoc] using this
      rw [List.foldlM_cons, checked, if_pos first, okOr_some, ok_bind, rest]
      simp [numelOf, Nat.mul_assoc]
  have whole := fold shape 1 (by simpa using fits)
  rw [Nat.one_mul] at whole
  exact whole

theorem bytesForNumel_eq {dtype : GgufTensorType} {numel per size : Nat}
    (block : dtype.block = some (per, size)) (whole : numel % per = 0)
    (fits : numel / per * size < 2 ^ 64) : dtype.bytesForNumel numel = .ok (numel / per * size) := by
  have blocks : ∀ unaligned overflow, GgufTensorType.blockBytes numel per size unaligned overflow =
      .ok (numel / per * size) := by
    intro unaligned overflow
    rw [GgufTensorType.blockBytes, if_neg (not_not_intro whole), checked, if_pos fits, okOr_some]
  -- Dense types have one element a block and take the unblocked branch.
  cases dtype with
  | other raw => simp [GgufTensorType.block] at block
  | f32 | f16 =>
    obtain ⟨rfl, rfl⟩ : 1 = per ∧ _ = size := by simpa [GgufTensorType.block] using block
    rw [Nat.div_one] at fits ⊢
    rw [GgufTensorType.bytesForNumel, checked, if_pos fits, okOr_some]
  -- The other types have a block and go through the check for whole blocks.
  | _ =>
    obtain ⟨rfl, rfl⟩ : _ = per ∧ _ = size := by simpa [GgufTensorType.block] using block
    exact blocks _ _

theorem sliceTensor_eq {base : Nat} {data : List UInt8} {info : TensorInfo}
    (small : buf.length < 2 ^ 63) (ahead : Ahead buf base data) (well : info.WellFormed data)
    (fits : ∀ k ≤ info.shape.length, numelOf (info.shape.take k) < 2 ^ 64) :
    sliceTensor buf base info = .ok ⟨info.name, info.shape, info.dtype,
      (data.drop info.offset.toNat).take info.nbytes⟩ := by
  obtain ⟨per, size, block, whole⟩ := well.blocks
  have nbytes : info.nbytes = numelOf info.shape / per * size := by
    rw [TensorInfo.nbytes, block]
  have range := well.range
  have bound := ahead.bound
  -- `start` and `end` are checked sums; both stay inside the buffer.
  have fitsStart : base + info.offset.toNat < wordSize := by
    unfold wordSize
    omega
  have fitsEnd : base + info.offset.toNat + info.nbytes < wordSize := by
    unfold wordSize
    omega
  -- The tensor's range lies in the section ahead, so slicing the file is slicing the data.
  have bytes : Outcome.slice (ε := Error) buf (base + info.offset.toNat)
      (base + info.offset.toNat + info.nbytes) =
        .ok ((data.drop info.offset.toNat).take info.nbytes) := by
    obtain ⟨before, rest, eq, len⟩ := ahead
    have skip : (before ++ (data ++ rest)).drop (base + info.offset.toNat) =
        data.drop info.offset.toNat ++ rest := by
      rw [← len, ← List.drop_drop, List.drop_left, List.drop_append_of_le_length (by omega)]
    rw [slice_of_le (Nat.le_add_right _ _) (by omega), eq, skip, Nat.add_sub_cancel_left,
      List.take_append_of_le_length (by rw [List.length_drop]; omega)]
  unfold sliceTensor
  rw [checkedNumel_eq fits, ok_bind, bytesForNumel_eq block whole (by omega), ok_bind, ← nbytes,
    checked, if_pos fitsStart, okOr_some, ok_bind, checked, if_pos fitsEnd, okOr_some, ok_bind,
    if_neg (by omega), bytes, ok_bind]
  rfl

theorem sliceTensors_eq {base : Nat} {data : List UInt8} (small : buf.length < 2 ^ 63)
    (ahead : Ahead buf base data) (infos : List TensorInfo)
    (well : ∀ info ∈ infos, info.WellFormed data)
    (fits : ∀ info ∈ infos, ∀ k ≤ info.shape.length, numelOf (info.shape.take k) < 2 ^ 64) :
    ∀ (i : Nat) (byName : BTreeMap Nat) (c : Cursor), ∃ c',
      (sliceTensors buf base i infos byName).eval c = (.ok (infos.map fun info =>
          ⟨info.name, info.shape, info.dtype, (data.drop info.offset.toNat).take info.nbytes⟩,
        ((infos.map TensorInfo.name).zipIdx i).foldl (fun map e => map.insert e.1 e.2) byName), c') := by
  induction infos with
  | nil => exact fun i byName c => ⟨c, rfl⟩
  | cons info infos ih =>
    intro i byName c
    -- The index map grows by one name a step; the induction carries it, whatever it holds so
    -- far.
    have here := sliceTensor_eq small ahead (well info List.mem_cons_self) (fits info List.mem_cons_self)
    obtain ⟨c', run⟩ := ih (fun x mem => well x (List.mem_cons_of_mem _ mem))
      (fun x mem => fits x (List.mem_cons_of_mem _ mem)) (i + 1) (byName.insert info.name i)
      { c with work.tensors := c.work.tensors + 1 }
    refine ⟨c', ?_⟩
    rw [sliceTensors, countTensor, eval_bind_ok (eval_update _ c), here, lift_ok, pure_bind,
      eval_bind_ok run]
    rfl

/-! ### The whole file -/

/-- The alignment that the parser computes is the model's, unless it is an explicit zero. -/
theorem alignmentOf_eq {m : GgufModel} {metadata : BTreeMap GgufValue}
    (same : ∀ key : String, metadata[key]? = m.lastValue key)
    (nonzero : m.lastValue "general.alignment" ≠ some (.u32 0)) :
    alignmentOf metadata = m.alignment := by
  unfold alignmentOf GgufModel.alignment
  rw [same]
  cases last : m.lastValue "general.alignment" with
  | none => rfl
  | some value =>
    cases value with
    | u32 n =>
      have positive : n ≠ 0 := by
        rintro rfl
        exact nonzero last
      -- Any other kind of value falls back to the default alignment, in the reader and the
      -- model.
      exact (if_neg positive).symm
    | _ => rfl

theorem alignment_pos (m : GgufModel) : 0 < m.alignment := by
  unfold GgufModel.alignment
  split
  next n eq =>
    split
    next zero => decide
    next nonzero =>
      have : n.toNat ≠ 0 := fun zero => nonzero (UInt32.toNat_inj.mp zero)
      omega
  next => decide

/-- The data section begins behind the head. -/
theorem writeHead_le_base (m : GgufModel) : m.writeHead.length ≤ m.base := by
  have positive := alignment_pos m
  have quotient := Nat.div_add_mod (m.writeHead.length + m.alignment - 1) m.alignment
  have remainder := Nat.mod_lt (m.writeHead.length + m.alignment - 1) positive
  unfold GgufModel.base
  rw [Nat.mul_comm]
  omega

/-- The file that the parser builds from a written model. -/
def fileOf (m : GgufModel) : GgufFile where
  version := m.version
  metadata := metadataOf m
  tensors := m.infos.map fun info =>
    ⟨info.name, info.shape, info.dtype, (m.data.drop info.offset.toNat).take info.nbytes⟩
  byName := (m.infos.map TensorInfo.name).zipIdx.foldl (fun map e => map.insert e.1 e.2) ∅

theorem metadata_fileOf (m : GgufModel) (key : String) :
    (fileOf m).metadata[key]? = m.lastValue key := by
  have looked := getElem?_foldl_insert m.entries key ∅
  simpa [fileOf, metadataOf, GgufModel.lastValue] using looked

theorem byName_fileOf (m : GgufModel) (name : String) :
    (fileOf m).byName[name]? = (m.infos.map TensorInfo.name).zipIdx.reverse.lookup name := by
  have looked := getElem?_foldl_insert (m.infos.map TensorInfo.name).zipIdx name ∅
  simpa [fileOf] using looked

theorem parsed_write {m : GgufModel} (well : m.WellFormed) (fits : m.DimsFit)
    (aligned : m.lastValue "general.alignment" ≠ some (.u32 0)) (reserved : m.TensorsFit) :
    parsed m.write = .ok (fileOf m) := by
  have small := well.size
  have behind := writeHead_le_base m
  -- The written file is the header, zeros up to the base, then the data section.
  have head : Ahead m.write 0 m.writeHead := ⟨[], _, rfl, rfl⟩
  have length : m.base + m.data.length = m.write.length := by
    simp only [write, List.length_append, List.length_replicate]
    omega
  have data : Ahead m.write m.base m.data := by
    refine ⟨m.writeHead ++ List.replicate (m.base - m.writeHead.length) 0, [], ?_, ?_⟩
    · simp [write]
    · simp only [List.length_append, List.length_replicate]
      omega
  obtain ⟨w, run⟩ := decodes_readHead well reserved small Cursor.new head
  have alignment := alignmentOf_eq (metadata_fileOf m) aligned
  have positive := alignment_pos m
  -- `align_up` of the header's end is the base the writer padded to.
  have place : alignUp (Cursor.new.pos + m.writeHead.length) m.alignment = .ok m.base := by
    have inside : m.base < wordSize := by
      unfold wordSize
      omega
    have start : Cursor.new.pos + m.writeHead.length = m.writeHead.length := Nat.zero_add _
    rw [start, alignUp, divCeil, if_neg (by omega)]
    change okOr (checked m.base) _ = _
    rw [checked, if_pos inside, okOr_some]
  -- With header and base in place, every tensor is a slice of the data section.
  obtain ⟨c', tensors⟩ := sliceTensors_eq small data m.infos well.infos fits 0 ∅
    ⟨m.base, { w with reserved := ⟨m.infos.length, tensorSize⟩ :: w.reserved }⟩
  have whole : (parse m.write).eval Cursor.new = (.ok (fileOf m), c') := by
    unfold parse
    rw [eval_bind_ok run]
    unfold placeTensors
    dsimp only
    rw [show alignmentOf (metadataOf m) = m.alignment from alignment, if_neg (by omega),
      eval_bind_ok (eval_state _), place, lift_ok, pure_bind, seek, eval_bind_ok (eval_update _ _),
      reserve, bind_assoc, eval_bind_ok (eval_update _ _), withCapacity_of_lt reserved, lift_ok, pure_bind,
      eval_bind_ok tensors]
    rfl
  rw [parsed, whole]

/-- Parsing a written model returns its version, its metadata with the last value of each
repeated key, its tensors in file order and an index to the last tensor of each name. -/
theorem parse_write (m : GgufModel) (well : m.WellFormed) (fits : m.DimsFit)
    (aligned : m.lastValue "general.alignment" ≠ some (.u32 0)) (reserved : m.TensorsFit) :
    ∃ g, parsed m.write = .ok g ∧ m.ReadAs g :=
  ⟨fileOf m, parsed_write well fits aligned reserved,
    ⟨rfl, metadata_fileOf m, rfl, byName_fileOf m⟩⟩

/-- A tensor without elements, whose leading dims alone multiply to `2 ^ 65`. -/
def wideEmpty : GgufModel where
  version := 3
  entries := []
  infos := [⟨"t", [9223372036854775808, 4, 0], .f32, 0⟩]
  data := []

/-- An explicit alignment of zero. -/
def zeroAlignment : GgufModel where
  version := 3
  entries := [("general.alignment", .u32 0)]
  infos := []
  data := []

theorem wellFormed_wideEmpty : wideEmpty.WellFormed := by
  refine ⟨by decide, by simp [wideEmpty], ?_, by decide +kernel⟩
  intro info mem
  obtain rfl : info = ⟨"t", [9223372036854775808, 4, 0], .f32, 0⟩ := by
    simpa [wideEmpty] using mem
  constructor
  · unfold ShortString
    decide
  · decide
  · exact ⟨1, 4, rfl, by decide⟩
  · decide

theorem wellFormed_zeroAlignment : zeroAlignment.WellFormed := by
  refine ⟨by decide, ?_, by simp [zeroAlignment], by decide⟩
  intro e mem
  obtain rfl : e = ("general.alignment", .u32 0) := by simpa [zeroAlignment] using mem
  refine ⟨?_, trivial⟩
  unfold ShortString
  decide

/-! ### Files that ask for too much -/

/-- Magic, version, a count of tensors and no metadata. -/
def header (version : UInt32) (count : UInt64) : List UInt8 :=
  magic ++ (toBytes 4 version.toNat ++ (toBytes 8 count.toNat ++ toBytes 8 0))

@[simp] theorem length_header (version : UInt32) (count : UInt64) : (header version count).length = 24 := by
  simp only [header, List.length_append, length_toBytes]
  rfl

/-- Whatever stands behind the header, the vector for the infos is refused. -/
theorem parsed_refused {version : UInt32} {count : UInt64} {rest : List UInt8}
    (supported : version ∈ supportedVersions) (small : (header version count ++ rest).length < 2 ^ 63)
    (large : 2 ^ 63 ≤ min count.toNat (rest.length / minTensorInfoBytes + 1) * infoSize) :
    parsed (header version count ++ rest) = .error (.panic .capacityOverflow) := by
  have ahead : Ahead (header version count ++ rest) Cursor.new.pos
      (magic ++ (toBytes 4 version.toNat ++ (toBytes 8 count.toNat ++ toBytes 8 0))) := ⟨[], rest, rfl, rfl⟩
  have length : (header version count ++ rest).length = 24 + rest.length := by
    rw [List.length_append, length_header]
  generalize header version count ++ rest = buf at *
  -- The four fixed fields of the header are read one after the other.
  obtain ⟨found, ahead⟩ := ahead.split
  obtain ⟨w₁, run₁⟩ := decodes_readN small magic Cursor.new found
  obtain ⟨version', ahead⟩ := ahead.split
  obtain ⟨w₂, run₂⟩ := decodes_readU32 small version ⟨_, w₁⟩ version'
  obtain ⟨tensors, entries⟩ := ahead.split
  obtain ⟨w₃, run₃⟩ := decodes_readU64 small count ⟨_, w₂⟩ tensors
  obtain ⟨w₄, run₄⟩ := decodes_readU64 small 0 ⟨_, w₃⟩ entries
  have place : Cursor.new.pos + magic.length + (toBytes 4 version.toNat).length +
      (toBytes 8 count.toNat).length + (toBytes 8 (0 : UInt64).toNat).length = 24 := by
    simp only [length_toBytes]
    rfl
  rw [place] at run₄
  have room : buf.length - 24 = rest.length := by omega
  have fits : rest.length / minTensorInfoBytes + 1 < wordSize := by
    have quotient := Nat.div_le_self rest.length minTensorInfoBytes
    unfold wordSize
    omega
  -- The reservation for the tensors comes before any of them is read, and it stops.
  have head : ((readHead buf).eval Cursor.new).1 = .error (.panic .capacityOverflow) := by
    unfold readHead
    change ((readN buf magic.length >>= _).eval _).1 = _
    rw [eval_bind_ok run₁, if_neg (not_not_intro rfl), eval_bind_ok run₂, if_neg (not_not_intro supported),
      eval_bind_ok run₃, eval_bind_ok run₄, UInt64.toNat_zero, readMetadata, pure_bind, eval_bind_ok (eval_state _)]
    dsimp only
    rw [room, word_of_lt fits, lift_ok, pure_bind, reserve, bind_assoc, eval_bind_ok (eval_update _ _),
      withCapacity_of_ge large]
    rfl
  cases run : (readHead buf).eval Cursor.new with
  | mk out c =>
    rw [run] at head
    unfold parsed parse
    rw [eval_bind_error (run.trans (Prod.ext head rfl))]

/-- Tensors of one element that share their data, with empty names. -/
def manyTensors (n : Nat) : GgufModel where
  version := 3
  entries := []
  infos := List.replicate n ⟨"", [], .f32, 0⟩
  data := [0, 0, 0, 0]

theorem length_infos_manyTensors (n : Nat) : ((manyTensors n).infos.flatMap writeInfo).length = n * 24 := by
  have info : (writeInfo ⟨"", [], .f32, 0⟩).length = 24 := by decide
  rw [List.flatMap_def, manyTensors, List.map_replicate, List.length_flatten, List.map_replicate,
    List.sum_replicate_nat, info]

section Many

variable {n : Nat}

/-- The file starts with a header, and the infos stand behind it. -/
theorem write_manyTensors (fits : n < 2 ^ 64) :
    ∃ rest, (manyTensors n).write = header 3 (UInt64.ofNat n) ++ rest ∧ n * 24 ≤ rest.length ∧
      rest.length ≤ n * 24 + 36 := by
  have count : (manyTensors n).infos.length = n := List.length_replicate
  have infos := length_infos_manyTensors n
  have align : (manyTensors n).alignment = 32 := rfl
  have head : (manyTensors n).writeHead =
      header 3 (UInt64.ofNat n) ++ (manyTensors n).infos.flatMap writeInfo := by
    simp only [writeHead, header, count, UInt64.toNat_ofNat_of_lt' fits, List.append_assoc]
    rfl
  -- An empty name, no dimension: 24 bytes a tensor, whatever the count.
  have long : (manyTensors n).writeHead.length = 24 + n * 24 := by
    rw [head, List.length_append, length_header, infos]
  refine ⟨(manyTensors n).infos.flatMap writeInfo ++
    (List.replicate ((manyTensors n).base - (manyTensors n).writeHead.length) 0 ++ [0, 0, 0, 0]), ?_, ?_, ?_⟩
  · rw [write, head, List.append_assoc]
    rfl
  · rw [List.length_append, infos]
    omega
  · simp only [List.length_append, infos, List.length_replicate, base, long, align, List.length_cons, List.length_nil]
    omega

theorem wellFormed_manyTensors (fits : n < 2 ^ 58) : (manyTensors n).WellFormed := by
  obtain ⟨rest, whole, -, most⟩ := write_manyTensors (n := n) (by omega)
  refine ⟨.inr rfl, nofun, fun info mem => ?_, ?_⟩
  · obtain rfl := List.eq_of_mem_replicate mem
    constructor
    · unfold ShortString
      decide
    · decide
    · exact ⟨1, 4, rfl, by decide⟩
    · exact (by decide : 0 + 4 ≤ 4)
  · rw [whole, List.length_append, length_header]
    omega

end Many

theorem manyTensors_refused :
    (manyTensors (2 ^ 57)).WellFormed ∧
      (parsed (manyTensors (2 ^ 57)).write).stop? = some (.panic .capacityOverflow) := by
  -- the number stays a variable, so that nothing is computed
  obtain ⟨n, many⟩ : ∃ n : Nat, n = 2 ^ 57 := ⟨_, rfl⟩
  rw [← many]
  obtain ⟨rest, whole, least, most⟩ := write_manyTensors (n := n) (by omega)
  refine ⟨wellFormed_manyTensors (by omega), ?_⟩
  have small : (header 3 (UInt64.ofNat n) ++ rest).length < 2 ^ 63 := by
    rw [List.length_append, length_header]
    omega
  have large : 2 ^ 63 ≤ min (UInt64.ofNat n).toNat (rest.length / minTensorInfoBytes + 1) * infoSize := by
    rw [UInt64.toNat_ofNat', Nat.mod_eq_of_lt (by omega)]
    unfold minTensorInfoBytes infoSize
    omega
  rw [whole, parsed_refused (by decide) small large]
  rfl

/-- The checks on partial products and on the alignment refuse two models, and the parser cannot
reserve the vector for the tensors of the third. -/
theorem parse_write_refused :
    (wideEmpty.WellFormed ∧ (parsed wideEmpty.write).stop? =
        some (.err (.overflow "gguf: shape product overflows u64"))) ∧
      (zeroAlignment.WellFormed ∧ (parsed zeroAlignment.write).stop? =
        some (.err (.malformed "gguf: general.alignment is zero"))) ∧
      ((manyTensors (2 ^ 57)).WellFormed ∧ (parsed (manyTensors (2 ^ 57)).write).stop? =
        some (.panic .capacityOverflow)) ∧
      ¬∀ m : GgufModel, m.WellFormed → ∃ g, parsed m.write = .ok g ∧ m.ReadAs g := by
  have wide : (parsed wideEmpty.write).stop? =
      some (.err (.overflow "gguf: shape product overflows u64")) := by decide +kernel
  have zero : (parsed zeroAlignment.write).stop? =
      some (.err (.malformed "gguf: general.alignment is zero")) := by decide +kernel
  refine ⟨⟨wellFormed_wideEmpty, wide⟩, ⟨wellFormed_zeroAlignment, zero⟩, manyTensors_refused, fun always => ?_⟩
  -- The first of the three refused files already refutes the round trip without its conditions.
  obtain ⟨g, accepted, -⟩ := always wideEmpty wellFormed_wideEmpty
  rw [accepted] at wide
  exact absurd wide (by simp [stop?])

/-- A repeated key, a string, a packed string array and a tensor. -/
def sample : GgufModel where
  version := 3
  entries := [("k", .u8 1), ("k", .string "v"), ("a", .array ⟨.string, 1, [1, 0, 0, 0, 0, 0, 0, 0, 65]⟩)]
  infos := [⟨"t", [2, 1], .f16, 1⟩]
  data := [9, 1, 2, 3, 4]

theorem wellFormed_sample : sample.WellFormed := by
  refine ⟨by decide, ?_, ?_, by decide +kernel⟩
  -- The three metadata entries of the sample, the array of strings last.
  · intro e mem
    simp only [sample, List.mem_cons, List.not_mem_nil, or_false] at mem
    rcases mem with rfl | rfl | rfl
    · exact ⟨by unfold ShortString; decide, trivial⟩
    · exact ⟨by unfold ShortString; decide, by unfold GgufValue.WellFormed ShortString; decide⟩
    · refine ⟨by unfold ShortString; decide, rfl, [[65]], rfl, by simp, by decide⟩
  · intro info mem
    obtain rfl : info = ⟨"t", [2, 1], .f16, 1⟩ := by simpa [sample] using mem
    constructor
    · unfold ShortString
      decide
    · decide
    · exact ⟨1, 2, rfl, by decide⟩
    · decide

theorem dimsFit_sample : sample.DimsFit := by
  intro info mem k le
  obtain rfl : info = ⟨"t", [2, 1], .f16, 1⟩ := by simpa [sample] using mem
  have bound : k ≤ 2 := le
  interval_cases k <;> decide

theorem parse_write_sample : ∃ g, parsed sample.write = .ok g ∧ sample.ReadAs g :=
  parse_write sample wellFormed_sample dimsFit_sample (by decide) (by decide)

end GgufFile

end VitniTensor
