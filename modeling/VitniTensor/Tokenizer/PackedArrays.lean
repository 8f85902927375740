import VitniTensor.Gguf.Accepted
import VitniTensor.Gguf.RoundTrip
import VitniTensor.Lib.Rows
import VitniTensor.Tokenizer.GgufSpm

/-!
# Packed arrays, as the parser skips them and as the tokenizers read them

The parser walks over an array of strings with checked additions, the tokenizers copy it with
unchecked ones. The array holds exactly the bytes of the walk, so the copy goes through and ends
where the bytes end. What may fail is only the reservation in front of it.
-/

namespace VitniTensor

open Outcome LittleEndian GgufFile
open GgufBpe (reserveStrings reserveFloats readStr)

/-- The strings as `(u64 length, bytes)`, one after the other. -/
def packStrings (strings : List (List UInt8)) : List UInt8 :=
  strings.flatMap (Codec.blob (toBytes 8))

/-- The bits of the floats, one after the other. -/
def packFloats (floats : List Binary32) : List UInt8 :=
  floats.flatMap fun x => toBytes 4 x.bits.toNat

namespace GgufArray

/-- One turn of the loop of both `read_str_array`. -/
def readNext (data : List UInt8) : List (List UInt8) × Nat → Res (List (List UInt8) × Nat)
  | (out, p) => do
    let (s, p) ← readStr data p
    pure (out ++ [s], p)

/-- The whole loop: the strings, and where the reading stopped. -/
def readStrings (arr : GgufArray) : Res (List (List UInt8) × Nat) :=
  forRange arr.len.toNat (fun _ => readNext arr.data) ([], 0)

/-! ### Strings -/

/-- The string behind `front`. -/
theorem readStr_packed {data front rest s : List UInt8} (hsmall : data.length < wordSize)
    (hdata : data = front ++ (Codec.blob (toBytes 8) s ++ rest)) :
    readStr data front.length = .ok (s, front.length + (Codec.blob (toBytes 8) s).length) := by
  have hblob : (Codec.blob (toBytes 8) s).length = 8 + s.length := by
    rw [Codec.blob, List.length_append, length_toBytes]
  have hlength : data.length = front.length + (8 + s.length + rest.length) := by
    rw [hdata, List.length_append, List.length_append, hblob]
  have hcount : (data.drop front.length).take 8 = toBytes 8 s.length := by
    rw [hdata, List.drop_left, Codec.blob, List.append_assoc]
    exact List.take_left' (length_toBytes 8 _)
  have hstring : (data.drop (front.length + 8)).take s.length = s := by
    rw [hdata, ← List.drop_drop, List.drop_left, Codec.blob, List.append_assoc,
      List.drop_left' (length_toBytes 8 _), List.take_left]
  have hword : ofBytes (toBytes 8 s.length) = s.length := by
    apply ofBytes_toBytes
    change s.length < wordSize
    omega
  unfold readStr
  rw [word_of_lt (by omega), ok_bind, if_neg (by omega), slice_of_le (by omega) (by omega), ok_bind,
    Nat.add_sub_cancel_left, hcount, hword, word_of_lt (by omega), ok_bind, if_neg (by omega),
    slice_of_le (by omega) (by omega), ok_bind, Nat.add_sub_cancel_left, hstring, hblob, Nat.add_assoc]
  rfl

/-- The loop over the strings that are left. -/
theorem readStrings_from {data : List UInt8} (hsmall : data.length < wordSize) (strings : List (List UInt8)) :
    ∀ (lo : Nat) (front : List UInt8) (out : List (List UInt8)), data = front ++ packStrings strings →
      forFrom lo strings.length (fun _ => readNext data) (out, front.length) =
        .ok (out ++ strings, data.length) := by
  induction strings with
  | nil =>
    intro lo front out hdata
    rw [hdata, packStrings, List.flatMap_nil, List.append_nil, List.append_nil]
    rfl
  | cons s strings ih =>
    intro lo front out hdata
    rw [packStrings, List.flatMap_cons] at hdata
    have hrest := ih (lo + 1) (front ++ Codec.blob (toBytes 8) s) (out ++ [s])
      (by rw [hdata, List.append_assoc]; rfl)
    have hturn : readNext data (out, front.length) =
        .ok (out ++ [s], (front ++ Codec.blob (toBytes 8) s).length) := by
      rw [readNext, readStr_packed hsmall hdata, ok_bind, List.length_append]
      rfl
    rw [List.length_cons, forFrom, hturn, ok_bind, hrest, List.append_assoc, List.singleton_append]

theorem readStrings_packed {arr : GgufArray} {strings : List (List UInt8)} (hsmall : arr.data.length < wordSize)
    (hcount : strings.length = arr.len.toNat) (hdata : arr.data = packStrings strings) :
    arr.readStrings = .ok (strings, arr.data.length) := by
  unfold readStrings
  rw [← hcount]
  exact readStrings_from hsmall strings 0 [] [] hdata

end GgufArray

variable {g : GgufFile} {key : String} {arr : GgufArray}

theorem GgufBpe.readStrArray_eq (hentry : g.metadata[key]? = some (.array arr)) (htype : arr.elemType = .string) :
    GgufBpe.readStrArray g key = (do
      reserveStrings arr.len.toNat
      let (out, _) ← arr.readStrings
      pure out) := by
  unfold GgufBpe.readStrArray
  rw [hentry]
  dsimp only
  rw [if_pos htype]
  rfl

theorem GgufSpm.readStrArray_eq (hentry : g.metadata[key]? = some (.array arr)) (htype : arr.elemType = .string) :
    GgufSpm.readStrArray g key = GgufBpe.readStrArray g key := by
  rw [GgufBpe.readStrArray_eq hentry htype]
  unfold GgufSpm.readStrArray
  rw [hentry]
  dsimp only
  rw [if_pos htype]
  rfl

/-! ### Floats -/

/-- The float whose bits are the four bytes of row `i`. -/
def floatAt (data : List UInt8) (i : Nat) : Binary32 :=
  ⟨UInt32.ofNat (ofBytes (Rows.row 4 data i))⟩

section Floats

variable {data : List UInt8} {n i : Nat}

theorem toBytes_floatAt (hlength : data.length = n * 4) (hi : i < n) :
    toBytes 4 (floatAt data i).bits.toNat = Rows.row 4 data i := by
  have hrow := Rows.length_row hi hlength
  have hbound := ofBytes_lt (Rows.row 4 data i)
  have hback := toBytes_ofBytes (Rows.row 4 data i)
  rw [hrow] at hbound hback
  have hword : ofBytes (Rows.row 4 data i) < 2 ^ 32 := Nat.lt_of_lt_of_eq hbound (by decide)
  unfold floatAt
  rw [UInt32.toNat_ofNat', Nat.mod_eq_of_lt hword, hback]

theorem packFloats_floatAt (hlength : data.length = n * 4) :
    packFloats ((List.range n).map (floatAt data)) = data := by
  have hrows : (List.range n).map (fun i => toBytes 4 (floatAt data i).bits.toNat) =
      (List.range n).map (Rows.row 4 data) :=
    List.map_congr_left fun i hi => toBytes_floatAt hlength (List.mem_range.mp hi)
  rw [packFloats, List.flatMap_map, List.flatMap_def, hrows, Rows.flatten_rows hlength]

theorem GgufSpm.readF32_eq (hsmall : data.length < wordSize) (hlength : data.length = n * 4) (hi : i < n) :
    GgufSpm.readF32 data i = .ok (floatAt data i) := by
  have hend := Rows.row_end_le hi hlength
  unfold GgufSpm.readF32
  rw [word_of_lt (by omega), ok_bind, word_of_lt (by omega), ok_bind, if_neg (by omega),
    slice_of_le (by omega) hend, ok_bind, Nat.add_sub_cancel_left]
  rfl

end Floats

theorem GgufSpm.readF32Array_eq (hentry : g.metadata[key]? = some (.array arr)) (htype : arr.elemType = .float32)
    (hsmall : arr.data.length < 2 ^ 63) (hlength : arr.data.length = arr.len.toNat * 4) :
    GgufSpm.readF32Array g key = .ok ((List.range arr.len.toNat).map (floatAt arr.data)) := by
  have hreserve : reserveFloats arr.len.toNat = .ok () := by
    unfold reserveFloats
    rw [if_pos (by omega)]
  have hword : arr.data.length < wordSize := by
    unfold wordSize
    omega
  unfold GgufSpm.readF32Array
  rw [hentry]
  dsimp only
  rw [if_pos htype, hreserve, ok_bind]
  exact collectRange_eq fun i hi => GgufSpm.readF32_eq hword hlength hi

/-! ### Accepted files -/

/-- Under this key, the file has these strings, as many as a vector may hold. -/
structure HasStrings (g : GgufFile) (key : String) (arr : GgufArray) (strings : List (List UInt8)) : Prop where
  entry : g.metadata[key]? = some (.array arr)
  isString : arr.elemType = .string
  count : strings.length = arr.len.toNat
  fits : arr.len.toNat * 24 < 2 ^ 63
  data : arr.data = packStrings strings
  small : arr.data.length < wordSize

/-- Both tokenizers read them, up to the end of the bytes. -/
theorem HasStrings.read {strings : List (List UInt8)} (h : HasStrings g key arr strings) :
    arr.readStrings = .ok (strings, arr.data.length) ∧ GgufSpm.readStrArray g key = .ok strings ∧
      GgufBpe.readStrArray g key = .ok strings := by
  have hread := GgufArray.readStrings_packed h.small h.count h.data
  have hreserve : reserveStrings arr.len.toNat = .ok () := if_pos h.fits
  have hbpe : GgufBpe.readStrArray g key = .ok strings := by
    rw [GgufBpe.readStrArray_eq h.entry h.isString, hreserve, ok_bind, hread, ok_bind]
    rfl
  exact ⟨hread, by rw [GgufSpm.readStrArray_eq h.entry h.isString, hbpe], hbpe⟩

section Accepted

variable {buf : List UInt8} (small : buf.length < 2 ^ 63) (accepted : parsed buf = .ok g)
  (hentry : g.metadata[key]? = some (.array arr))
include small accepted hentry

theorem hasStrings_of_parsed (htype : arr.elemType = .string) (hfits : arr.len.toNat * 24 < 2 ^ 63) :
    ∃ strings, HasStrings g key arr strings := by
  have hvalue := metadata_of_parsed accepted key _ hentry
  have hpacked : arr.Packed := hvalue.value
  have hinside : arr.data.length ≤ buf.length := hvalue.inside arr rfl
  unfold GgufArray.Packed at hpacked
  rw [htype] at hpacked
  obtain ⟨-, strings, hcount, -, hdata⟩ := hpacked
  refine ⟨strings, hentry, htype, hcount, hfits, hdata, ?_⟩
  unfold wordSize
  omega

theorem readF32Array_of_parsed (htype : arr.elemType = .float32) :
    ∃ floats, GgufSpm.readF32Array g key = .ok floats ∧ floats.length = arr.len.toNat ∧
      packFloats floats = arr.data := by
  have hvalue := metadata_of_parsed accepted key _ hentry
  have hpacked : arr.Packed := hvalue.value
  have hsmall : arr.data.length < 2 ^ 63 := Nat.lt_of_le_of_lt (hvalue.inside arr rfl) small
  unfold GgufArray.Packed at hpacked
  rw [htype] at hpacked
  refine ⟨_, GgufSpm.readF32Array_eq hentry htype hsmall hpacked, ?_, packFloats_floatAt hpacked⟩
  rw [List.length_map, List.length_range]

/-- In an accepted file, both tokenizers read an array of strings whose vector can be reserved: all
of them, up to the end of the bytes. An array of floats is read in any case. -/
theorem packedArrays_agree :
    (arr.elemType = .string → arr.len.toNat * 24 < 2 ^ 63 →
      ∃ strings, arr.readStrings = .ok (strings, arr.data.length) ∧
        GgufSpm.readStrArray g key = .ok strings ∧ GgufBpe.readStrArray g key = .ok strings ∧
        strings.length = arr.len.toNat ∧ packStrings strings = arr.data) ∧
    (arr.elemType = .string → 2 ^ 63 ≤ arr.len.toNat * 24 →
      GgufSpm.readStrArray g key = panic .capacityOverflow ∧
        GgufBpe.readStrArray g key = panic .capacityOverflow) ∧
    (arr.elemType = .float32 →
      ∃ floats, GgufSpm.readF32Array g key = .ok floats ∧ floats.length = arr.len.toNat ∧
        packFloats floats = arr.data) := by
  refine ⟨fun htype hfits => ?_, fun htype hlarge => ?_, readF32Array_of_parsed small accepted hentry⟩
  · obtain ⟨strings, hstrings⟩ := hasStrings_of_parsed small accepted hentry htype hfits
    obtain ⟨hread, hspm, hbpe⟩ := hstrings.read
    exact ⟨strings, hread, hspm, hbpe, hstrings.count, hstrings.data.symm⟩
  · have hreserve : reserveStrings arr.len.toNat = panic .capacityOverflow :=
      if_neg (Nat.not_lt_of_le hlarge)
    have hbpe : GgufBpe.readStrArray g key = panic .capacityOverflow := by
      rw [GgufBpe.readStrArray_eq hentry htype, hreserve, error_bind]
    exact ⟨by rw [GgufSpm.readStrArray_eq hentry htype, hbpe], hbpe⟩

end Accepted

/-- A file with an array of strings and an array of floats. -/
def stringsAndFloats : GgufModel where
  version := 3
  entries := [("s", .array ⟨.string, 2, packStrings [[65, 66], []]⟩), ("f", .array ⟨.float32, 1, [0, 0, 128, 63]⟩)]
  infos := []
  data := []

theorem parsed_stringsAndFloats : parsed stringsAndFloats.write = .ok (fileOf stringsAndFloats) := by
  have hname : ∀ key ∈ ["s", "f"], ShortString key := by
    unfold ShortString
    decide +kernel
  refine parsed_write ⟨by decide, ?_, nofun, by decide +kernel⟩ nofun (by decide +kernel) (by decide)
  intro e he
  rcases List.mem_pair.mp he with rfl | rfl
  · exact ⟨hname _ (by decide), rfl, [[65, 66], []], rfl, by decide, rfl⟩
  · exact ⟨hname _ (by decide), rfl⟩

theorem packedArrays_agree_strings :
    ∃ strings, (⟨.string, 2, packStrings [[65, 66], []]⟩ : GgufArray).readStrings = .ok (strings, 18) ∧
      GgufSpm.readStrArray (fileOf stringsAndFloats) "s" = .ok strings ∧
      GgufBpe.readStrArray (fileOf stringsAndFloats) "s" = .ok strings ∧
      strings.length = 2 ∧ packStrings strings = packStrings [[65, 66], []] :=
  (packedArrays_agree (by decide +kernel) parsed_stringsAndFloats (metadata_fileOf _ "s")).1 rfl (by decide)

/-! ### Many empty strings -/

def emptyStrings (n : Nat) : GgufArray :=
  ⟨.string, UInt64.ofNat n, packStrings (List.replicate n [])⟩

def manyEmpty (n : Nat) : GgufModel where
  version := 3
  entries := [("s", .array (emptyStrings n))]
  infos := []
  data := []

section Many

variable {n : Nat}

theorem length_packStrings_replicate (n : Nat) : (packStrings (List.replicate n [])).length = n * 8 := by
  induction n with
  | zero => rfl
  | succ n ih =>
    rw [packStrings] at ih ⊢
    rw [List.replicate_succ, List.flatMap_cons, List.length_append, ih, Codec.blob, List.append_nil,
      length_toBytes, Nat.succ_mul, Nat.add_comm]

theorem length_writeHead_manyEmpty (n : Nat) : (manyEmpty n).writeHead.length = 49 + n * 8 := by
  have hname : "s".asBytes.length = 1 := by decide
  have hdata : (emptyStrings n).data.length = n * 8 := length_packStrings_replicate n
  simp only [GgufModel.writeHead, GgufModel.writeEntry, GgufModel.writeValue, GgufModel.writeArray,
    GgufModel.writeString, Codec.blob, manyEmpty, List.length_append, List.flatMap_cons, List.flatMap_nil,
    List.length_nil, length_toBytes, hname, hdata, magic, List.length_cons]
  omega

theorem length_write_manyEmpty_le (n : Nat) : (manyEmpty n).write.length ≤ 80 + n * 8 := by
  have hhead := length_writeHead_manyEmpty n
  have halign : (manyEmpty n).alignment = 32 := rfl
  have hbase : (manyEmpty n).base ≤ 80 + n * 8 := by
    unfold GgufModel.base
    rw [hhead, halign]
    omega
  have hdata : (manyEmpty n).data = [] := rfl
  unfold GgufModel.write
  rw [hdata, List.append_nil, List.length_append, List.length_replicate]
  omega

theorem wellFormed_manyEmpty (hn : n < 2 ^ 59 + 1) : (manyEmpty n).WellFormed := by
  have hwrite := length_write_manyEmpty_le n
  have hname : ShortString "s" := by
    unfold ShortString
    decide
  refine ⟨.inr rfl, ?_, nofun, by omega⟩
  intro e he
  obtain rfl := List.mem_singleton.mp he
  refine ⟨hname, rfl, List.replicate n [], ?_, ?_, rfl⟩
  · rw [List.length_replicate, emptyStrings, UInt64.toNat_ofNat', Nat.mod_eq_of_lt (by omega)]
  · intro s hs
    rw [List.eq_of_mem_replicate hs]
    decide

/-- The vectors of the tokenizers do not hold `2^59` strings, which a file of `2^62` bytes has. -/
theorem packedArrays_limits :
    ¬∀ (buf : List UInt8) (g : GgufFile) (key : String) (arr : GgufArray), buf.length < 2 ^ 63 →
      parsed buf = .ok g → g.metadata[key]? = some (.array arr) → arr.elemType = .string →
      (∃ strings, GgufSpm.readStrArray g key = .ok strings) ∧
        ∃ strings, GgufBpe.readStrArray g key = .ok strings := by
  intro hclaim
  -- the number stays a variable, so that nothing is computed
  obtain ⟨n, hn⟩ : ∃ n : Nat, n = 2 ^ 59 := ⟨_, rfl⟩
  have hwell : (manyEmpty n).WellFormed := wellFormed_manyEmpty (by omega)
  have hparsed : parsed (manyEmpty n).write = .ok (fileOf (manyEmpty n)) :=
    parsed_write hwell nofun nofun (by decide : 0 * 72 < 2 ^ 63)
  have hentry : (fileOf (manyEmpty n)).metadata["s"]? = some (.array (emptyStrings n)) :=
    metadata_fileOf (manyEmpty n) "s"
  have hreserve : reserveStrings (emptyStrings n).len.toNat = panic .capacityOverflow := by
    unfold reserveStrings
    rw [emptyStrings, UInt64.toNat_ofNat', Nat.mod_eq_of_lt (by omega), if_neg (by omega)]
  obtain ⟨-, strings, hread⟩ := hclaim _ _ "s" _ hwell.size hparsed hentry rfl
  rw [GgufBpe.readStrArray_eq hentry rfl, hreserve] at hread
  cases hread

end Many

end VitniTensor
