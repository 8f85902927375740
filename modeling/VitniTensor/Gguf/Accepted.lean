import VitniTensor.Gguf.Writer

/-!
# What the parser accepts is well formed

The bytes of a field that was read are the encoding of its value. Over an array of strings the
parser only walks: the bytes behind it are the packed encoding of as many strings as the array
announces. Every metadata value of an accepted file is well formed.
-/

namespace VitniTensor

open Outcome Exec LittleEndian

namespace Cursor

variable {buf : List UInt8} {c c' c'' : Cursor}

/-- Going from `c` to `c'` means going over `word`. -/
structure Consumed (buf : List UInt8) (c c' : Cursor) (word : List UInt8) : Prop where
  bytes : buf.drop c.pos = word ++ buf.drop c'.pos
  pos : c'.pos = c.pos + word.length

theorem Consumed.nil : Consumed buf c c [] :=
  ⟨rfl, rfl⟩

theorem Consumed.append {u v : List UInt8} (first : Consumed buf c c' u) (second : Consumed buf c' c'' v) :
    Consumed buf c c'' (u ++ v) := by
  constructor
  · rw [first.bytes, second.bytes, List.append_assoc]
  · rw [second.pos, first.pos, List.length_append, Nat.add_assoc]

/-- The next `n` bytes of the buffer. -/
theorem consumed_take {n : Nat} (inside : c.pos + n ≤ buf.length) :
    Consumed buf c { c with pos := c.pos + n } ((buf.drop c.pos).take n) := by
  constructor
  · dsimp only
    rw [← List.drop_drop, List.take_append_drop]
  · rw [List.length_take_of_le (by rw [List.length_drop]; omega)]

theorem Consumed.slice {word data : List UInt8} (h : Consumed buf c c' word)
    (run : (Outcome.slice buf c.pos c'.pos : Res (List UInt8)) = .ok data) : data = word := by
  obtain ⟨-, rfl⟩ := slice_eq_ok.mp run
  rw [h.bytes, h.pos, Nat.add_sub_cancel_left, List.take_left]

/-! ### Reading -/

theorem readN_consumed {n : Nat} {bs : List UInt8} (h : (readN buf n).eval c = (.ok bs, c')) :
    bs.length = n ∧ Consumed buf c c' bs := by
  rw [readN, eval_state_bind] at h
  obtain ⟨stop, hstop, h⟩ := eval_lift_bind_eq_ok.mp h
  obtain ⟨-, rfl⟩ := okOr_checked_eq_ok.mp hstop
  split at h
  next => cases h
  next hinside =>
    obtain ⟨s, hslice, h⟩ := eval_lift_bind_eq_ok.mp h
    cases h
    have hconsumed := consumed_take (Nat.le_of_not_lt hinside)
    obtain rfl := hconsumed.slice hslice
    refine ⟨?_, hconsumed⟩
    have hpos := hconsumed.pos
    dsimp only at hpos
    omega

theorem fromLeBytes_eq_ok {n v : Nat} {bs : List UInt8} (hlength : bs.length = n)
    (h : fromLeBytes n bs = .ok v) : v < 256 ^ n ∧ toBytes n v = bs := by
  obtain ⟨all, hall, h⟩ := bind_eq_ok.mp h
  cases h
  obtain ⟨-, rfl⟩ := slice_eq_ok.mp hall
  subst hlength
  rw [List.drop_zero, Nat.sub_zero, List.take_length]
  exact ⟨ofBytes_lt bs, toBytes_ofBytes bs⟩

theorem readU64_consumed {v : UInt64} (h : (readU64 buf).eval c = (.ok v, c')) :
    Consumed buf c c' (toBytes 8 v.toNat) := by
  obtain ⟨bs, t, hbs, h⟩ := eval_bind_eq_ok.mp h
  obtain ⟨hlength, hconsumed⟩ := readN_consumed hbs
  obtain ⟨n, hn, h⟩ := eval_lift_bind_eq_ok.mp h
  obtain ⟨hbound, hbytes⟩ := fromLeBytes_eq_ok hlength hn
  have hword : n < 2 ^ 64 := Nat.lt_of_lt_of_eq hbound (by decide)
  cases h
  rwa [UInt64.toNat_ofNat', Nat.mod_eq_of_lt hword, hbytes]

/-! ### Arrays -/

/-- The bytes skipped are the packed encoding of `len` strings. -/
theorem skipStrings_consumed {len : Nat} (h : (skipStrings buf len).eval c = (.ok (), c')) :
    ∃ strings : List (List UInt8), strings.length = len ∧ (∀ s ∈ strings, s.length < 2 ^ 64) ∧
      Consumed buf c c' (strings.flatMap (Codec.blob (toBytes 8))) := by
  induction len generalizing c with
  | zero =>
    cases h
    exact ⟨[], rfl, by simp, .nil⟩
  | succ len ih =>
    rw [skipStrings, countArrayString, eval_update_bind] at h
    obtain ⟨n, t, hn, h⟩ := eval_bind_eq_ok.mp h
    rw [eval_state_bind] at h
    obtain ⟨pos, hpos, h⟩ := eval_lift_bind_eq_ok.mp h
    obtain ⟨-, rfl⟩ := okOr_checked_eq_ok.mp hpos
    rw [seek, eval_update_bind] at h
    split at h
    next => cases h
    next hinside =>
      have hprefix := readU64_consumed hn
      have hstring := consumed_take (Nat.le_of_not_lt hinside)
      have hlength : ((buf.drop t.pos).take n.toNat).length = n.toNat := by
        have hpos := hstring.pos
        dsimp only at hpos
        omega
      obtain ⟨strings, hcount, hshort, hrest⟩ := ih h
      refine ⟨(buf.drop t.pos).take n.toNat :: strings, by rw [List.length_cons, hcount], ?_, ?_⟩
      · intro s hs
        rcases List.mem_cons.mp hs with rfl | hs
        · rw [hlength]
          exact n.toNat_lt
        · exact hshort s hs
      · have hall := hprefix.append (hstring.append hrest)
        rw [List.flatMap_cons, Codec.blob, hlength, List.append_assoc]
        -- the count moves nothing
        exact ⟨hall.bytes, hall.pos⟩

theorem skipElems_consumed {elemType : GgufValueType} {len : UInt64}
    (h : (skipElems buf elemType len).eval c = (.ok (), c')) :
    ∃ size word, elemType.elemSize = some size ∧ word.length = len.toNat * size ∧
      Consumed buf c c' word := by
  obtain ⟨size, hsize, h⟩ := eval_lift_bind_eq_ok.mp h
  obtain ⟨total, htotal, h⟩ := eval_lift_bind_eq_ok.mp h
  obtain ⟨-, rfl⟩ := okOr_checked_eq_ok.mp htotal
  rw [eval_state_bind] at h
  obtain ⟨stop, hstop, h⟩ := eval_lift_bind_eq_ok.mp h
  obtain ⟨-, rfl⟩ := okOr_checked_eq_ok.mp hstop
  split at h
  next => cases h
  next hinside =>
    cases h
    have hconsumed := consumed_take (Nat.le_of_not_lt hinside)
    refine ⟨size, _, okOr_eq_ok.mp hsize, ?_, hconsumed⟩
    have hpos := hconsumed.pos
    dsimp only at hpos
    omega

theorem length_slice_le {lo hi : Nat} {data : List UInt8} (h : (slice buf lo hi : Res (List UInt8)) = .ok data) :
    data.length ≤ buf.length := by
  obtain ⟨-, rfl⟩ := slice_eq_ok.mp h
  rw [List.length_take, List.length_drop]
  omega

/-- An array is packed, and no longer than the file. -/
theorem yields_readArray :
    Yields (readArray buf) fun arr => arr.Packed ∧ arr.data.length ≤ buf.length := by
  intro c arr c' h
  obtain ⟨raw, c₁, -, h⟩ := eval_bind_eq_ok.mp h
  obtain ⟨elemType, -, h⟩ := eval_lift_bind_eq_ok.mp h
  split at h
  next => cases h
  next hprimitive =>
    obtain ⟨len, c₂, -, h⟩ := eval_bind_eq_ok.mp h
    rw [eval_state_bind] at h
    dsimp only at h
    split at h
    next hstring =>
      obtain ⟨_, c₃, hskip, h⟩ := eval_bind_eq_ok.mp h
      rw [eval_state_bind] at h
      obtain ⟨data, hdata, h⟩ := eval_lift_bind_eq_ok.mp h
      cases h
      obtain ⟨strings, hcount, hshort, hconsumed⟩ := skipStrings_consumed hskip
      refine ⟨?_, length_slice_le hdata⟩
      unfold GgufArray.Packed
      rw [hstring]
      exact ⟨rfl, strings, hcount, hshort, hconsumed.slice hdata⟩
    next hfixed =>
      obtain ⟨_, c₃, hskip, h⟩ := eval_bind_eq_ok.mp h
      rw [eval_state_bind] at h
      obtain ⟨data, hdata, h⟩ := eval_lift_bind_eq_ok.mp h
      cases h
      obtain ⟨size, word, hsize, hlength, hconsumed⟩ := skipElems_consumed hskip
      refine ⟨?_, length_slice_le hdata⟩
      obtain rfl := hconsumed.slice hdata
      unfold GgufArray.Packed
      rw [hsize]
      exact hlength

/-! ### Metadata -/

theorem yields_readString : Yields (readString buf) ShortString := by
  intro c s c' h
  obtain ⟨n, c₁, -, h⟩ := eval_bind_eq_ok.mp h
  split at h
  next => cases h
  next hshort =>
    obtain ⟨bytes, c₂, hbytes, h⟩ := eval_bind_eq_ok.mp h
    obtain ⟨hlength, -⟩ := readN_consumed hbytes
    obtain ⟨hs, -⟩ := Prod.mk.inj h
    have hback := String.asBytes_of_ofBytes? (okOr_eq_ok.mp hs)
    unfold ShortString
    rw [hback, hlength]
    exact Nat.le_of_not_lt hshort

end Cursor

/-- What every entry of an accepted file is. -/
structure EntryAccepted (buf : List UInt8) (key : String) (v : GgufValue) : Prop where
  key : ShortString key
  value : v.WellFormed
  inside : ∀ arr, v = .array arr → arr.data.length ≤ buf.length

def MetadataAccepted (buf : List UInt8) (metadata : BTreeMap GgufValue) : Prop :=
  ∀ (key : String) (v : GgufValue), metadata[key]? = some v → EntryAccepted buf key v

theorem MetadataAccepted.insert {buf : List UInt8} {metadata : BTreeMap GgufValue}
    (h : MetadataAccepted buf metadata) {key : String} {v : GgufValue} (hentry : EntryAccepted buf key v) :
    MetadataAccepted buf (metadata.insert key v) := by
  intro key' v' hlookup
  rw [Std.TreeMap.getElem?_insert] at hlookup
  split at hlookup
  next hsame =>
    cases hlookup
    rw [Std.LawfulEqCmp.compare_eq_iff_eq] at hsame
    exact hsame ▸ hentry
  next => exact h key' v' hlookup

namespace GgufFile

open Cursor

variable {buf : List UInt8}

theorem yields_readValue {key : String} (hkey : ShortString key) (ty : GgufValueType) :
    Yields (readValue buf ty) (EntryAccepted buf key) := by
  cases ty with
  | string => exact yields_readString.map fun s hs => ⟨hkey, hs, nofun⟩
  | array =>
    refine yields_readArray.map ?_
    rintro arr ⟨hpacked, hinside⟩
    refine ⟨hkey, hpacked, ?_⟩
    rintro _ ⟨⟩
    exact hinside
  | _ => exact Yields.after fun _ => Yields.pure ⟨hkey, trivial, nofun⟩

theorem yields_readEntry : Yields (readEntry buf) fun e => EntryAccepted buf e.1 e.2 := by
  refine yields_readString.bind fun key hkey => ?_
  refine Yields.after fun raw => ?_
  refine Yields.after fun valueType => ?_
  exact (yields_readValue hkey valueType).map fun v hv => hv

theorem yields_readMetadata (count : Nat) :
    ∀ {metadata}, MetadataAccepted buf metadata → Yields (readMetadata buf count metadata) (MetadataAccepted buf) := by
  induction count with
  | zero => exact fun h => Yields.pure h
  | succ count ih =>
    intro metadata h
    rw [readMetadata]
    refine Yields.after fun _ => ?_
    exact yields_readEntry.bind fun entry hentry => ih (h.insert hentry)

theorem yields_readHead : Yields (readHead buf) fun head => MetadataAccepted buf head.2.1 := by
  have hempty : MetadataAccepted buf ∅ := fun key v h => by simp at h
  unfold readHead
  refine Yields.after fun found => ?_
  split
  next => exact Yields.fail _
  next =>
    refine Yields.after fun version => ?_
    split
    next => exact Yields.fail _
    next =>
      refine Yields.after fun tensorCount => ?_
      refine Yields.after fun kvCount => ?_
      refine (yields_readMetadata kvCount.toNat hempty).bind fun metadata h => ?_
      refine Yields.after fun c => ?_
      refine Yields.after fun most => ?_
      refine Yields.after fun _ => ?_
      refine Yields.after fun infos => ?_
      exact Yields.pure h

theorem yields_placeTensors {version : UInt32} {metadata : BTreeMap GgufValue} {infos : List TensorInfo}
    (h : MetadataAccepted buf metadata) :
    Yields (placeTensors buf version metadata infos) fun g => MetadataAccepted buf g.metadata := by
  unfold placeTensors
  dsimp only
  split
  next => exact Yields.fail _
  next =>
    refine Yields.after fun c => ?_
    refine Yields.after fun aligned => ?_
    refine Yields.after fun _ => ?_
    refine Yields.after fun _ => ?_
    refine Yields.after fun placed => ?_
    exact Yields.pure h

/-- Every key of an accepted file is short and every value well formed. -/
theorem metadata_of_parsed {g : GgufFile} (accepted : parsed buf = .ok g) : MetadataAccepted buf g.metadata := by
  have hyields : Yields (parse buf) fun g => MetadataAccepted buf g.metadata :=
    yields_readHead.bind fun head h => yields_placeTensors h
  apply hyields new g ((parse buf).eval new).2
  exact Prod.ext accepted rfl

end GgufFile

end VitniTensor
