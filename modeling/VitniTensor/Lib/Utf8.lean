import VitniTensor.Lib.Outcome
import VitniTensor.Lib.Text

/-!
# Slices of strings

A `&str` may be cut at character boundaries only: a slice that starts or ends inside of a
character panics. Boundaries are found on the bytes, and cutting there leaves whole characters
on both sides.
-/

namespace Utf8

/-- The bytes of a list of characters. -/
def encode (cs : List Char) : List UInt8 :=
  cs.flatMap String.utf8EncodeChar

/-- A byte that does not start a character. -/
def isContinuation (b : UInt8) : Bool :=
  0x80 ≤ b && b < 0xC0

@[simp] theorem encode_nil : encode [] = [] := rfl

@[simp] theorem encode_cons (c : Char) (cs : List Char) :
    encode (c :: cs) = String.utf8EncodeChar c ++ encode cs := rfl

@[simp] theorem encode_append (cs ds : List Char) : encode (cs ++ ds) = encode cs ++ encode ds :=
  List.flatMap_append

/-- A character is a byte that starts it and the bytes that continue it. -/
theorem utf8EncodeChar_eq (c : Char) : ∃ b rest, String.utf8EncodeChar c = b :: rest ∧
    isContinuation b = false ∧ ∀ x ∈ rest, isContinuation x = true := by
  have hstart : ∀ n < 256, n < 0x80 ∨ 0xC0 ≤ n → isContinuation (UInt8.ofNat n) = false := by decide +kernel
  have hnext : ∀ v, isContinuation (UInt8.ofNat (v % 64 + 128)) = true := by
    intro v
    have h : ∀ n < 256, 0x80 ≤ n → n < 0xC0 → isContinuation (UInt8.ofNat n) = true := by decide +kernel
    exact h _ (by omega) (by omega) (by omega)
  have hnil : ∀ x ∈ ([] : List UInt8), isContinuation x = true := fun _ h => nomatch h
  unfold String.utf8EncodeChar
  dsimp only
  split
  next hone => exact ⟨_, _, rfl, hstart _ (by omega) (.inl (by omega)), hnil⟩
  next =>
    split
    next htwo =>
      exact ⟨_, _, rfl, hstart _ (by omega) (.inr (by omega)), List.forall_mem_cons.mpr ⟨hnext _, hnil⟩⟩
    next =>
      split
      next hthree =>
        refine ⟨_, _, rfl, hstart _ (by omega) (.inr (by omega)), ?_⟩
        exact List.forall_mem_cons.mpr ⟨hnext _, List.forall_mem_cons.mpr ⟨hnext _, hnil⟩⟩
      next hfour =>
        refine ⟨_, _, rfl, hstart _ (by omega) (.inr (by omega)), ?_⟩
        exact List.forall_mem_cons.mpr ⟨hnext _, List.forall_mem_cons.mpr ⟨hnext _,
          List.forall_mem_cons.mpr ⟨hnext _, hnil⟩⟩⟩

/-- A first byte below `0x80` is the whole character. -/
theorem utf8EncodeChar_ascii {c : Char} {b : UInt8} {rest : List UInt8} (h : String.utf8EncodeChar c = b :: rest) :
    rest = [] ↔ b < 0x80 := by
  have hbyte : ∀ n < 256, UInt8.ofNat n < 0x80 ↔ n < 0x80 := by decide +kernel
  unfold String.utf8EncodeChar at h
  dsimp only at h
  split at h
  next hone =>
    cases h
    exact ⟨fun _ => (hbyte _ (by omega)).mpr (by omega), fun _ => rfl⟩
  next =>
    split at h
    next htwo =>
      cases h
      exact ⟨fun hnil => absurd hnil (List.cons_ne_nil _ _), fun hlt => absurd ((hbyte _ (by omega)).mp hlt) (by omega)⟩
    next =>
      split at h
      next hthree =>
        cases h
        exact ⟨fun hnil => absurd hnil (List.cons_ne_nil _ _), fun hlt => absurd ((hbyte _ (by omega)).mp hlt) (by omega)⟩
      next hfour =>
        cases h
        exact ⟨fun hnil => absurd hnil (List.cons_ne_nil _ _), fun hlt => absurd ((hbyte _ (by omega)).mp hlt) (by omega)⟩

theorem utf8EncodeChar_ne_nil (c : Char) : String.utf8EncodeChar c ≠ [] := by
  obtain ⟨b, rest, heq, -⟩ := utf8EncodeChar_eq c
  rw [heq]
  exact List.cons_ne_nil b rest

/-! ### Boundaries -/

/-- `str::is_char_boundary`, on the bytes. -/
def isCharBoundary (bytes : List UInt8) (i : Nat) : Bool :=
  i = 0 || match bytes[i]? with
    | none => i = bytes.length
    | some b => !isContinuation b

@[simp] theorem isCharBoundary_zero (bytes : List UInt8) : isCharBoundary bytes 0 = true := rfl

@[simp] theorem isCharBoundary_length (bytes : List UInt8) : isCharBoundary bytes bytes.length = true := by
  simp [isCharBoundary]

theorem le_length_of_isCharBoundary {bytes : List UInt8} {i : Nat} (h : isCharBoundary bytes i = true) :
    i ≤ bytes.length := by
  unfold isCharBoundary at h
  split at h
  next hnone =>
    have hend := List.getElem?_eq_none_iff.mp hnone
    simp at h
    omega
  next b hsome => exact Nat.le_of_lt (List.getElem?_eq_some_iff.mp hsome).1

/-- A boundary past the first part is one of the second. -/
theorem isCharBoundary_sub {xs ys : List UInt8} {i : Nat} (h : isCharBoundary (xs ++ ys) i = true)
    (hle : xs.length ≤ i) : isCharBoundary ys (i - xs.length) = true := by
  unfold isCharBoundary at h ⊢
  rw [List.getElem?_append_right hle, Bool.or_eq_true] at h
  rw [Bool.or_eq_true]
  rcases h with hzero | hbyte
  · left
    have hi := decide_eq_true_eq.mp hzero
    exact decide_eq_true (by omega)
  · right
    revert hbyte
    split
    · simp only [List.length_append, decide_eq_true_eq]
      intro hend
      omega
    · exact id

/-- Cutting at a boundary leaves whole characters on both sides. -/
theorem exists_split {cs : List Char} {i : Nat} (h : isCharBoundary (encode cs) i = true) :
    ∃ front back, cs = front ++ back ∧ (encode front).length = i := by
  induction cs generalizing i with
  | nil =>
    have hle := le_length_of_isCharBoundary h
    exact ⟨[], [], rfl, (Nat.le_zero.mp hle).symm⟩
  | cons c cs ih =>
    rcases Nat.eq_zero_or_pos i with rfl | hpos
    · exact ⟨[], c :: cs, rfl, rfl⟩
    · obtain ⟨b, rest, heq, -, hrest⟩ := utf8EncodeChar_eq c
      by_cases hinside : i < (String.utf8EncodeChar c).length
      · -- inside of the first character every byte continues it
        have hbyte : (encode (c :: cs))[i]? = rest[i - 1]? := by
          rw [encode_cons, List.getElem?_append_left hinside, heq, List.getElem?_cons]
          rw [if_neg (Nat.ne_of_gt hpos)]
        have hlt : i - 1 < rest.length := by
          rw [heq, List.length_cons] at hinside
          omega
        rw [List.getElem?_eq_getElem hlt] at hbyte
        unfold isCharBoundary at h
        simp only [hbyte, hrest _ (List.getElem_mem hlt), Bool.not_true, Bool.or_false, decide_eq_true_eq] at h
        exact absurd h (Nat.ne_of_gt hpos)
      · have hlater := isCharBoundary_sub (encode_cons c cs ▸ h) (Nat.not_lt.mp hinside)
        obtain ⟨front, back, rfl, hlength⟩ := ih hlater
        refine ⟨c :: front, back, rfl, ?_⟩
        rw [encode_cons, List.length_append, hlength]
        omega

theorem isCharBoundary_append (cs ds : List Char) :
    isCharBoundary (encode (cs ++ ds)) (encode cs).length = true := by
  cases ds with
  | nil =>
    rw [List.append_nil]
    exact isCharBoundary_length _
  | cons d ds =>
    obtain ⟨b, rest, heq, hb, -⟩ := utf8EncodeChar_eq d
    unfold isCharBoundary
    rw [encode_append, List.getElem?_append_right (Nat.le_refl _), Nat.sub_self, encode_cons, heq]
    simp [hb]

/-- A byte below `0x80` is a character of its own. -/
theorem isCharBoundary_ascii {bytes : List UInt8} {i : Nat} {b : UInt8} (h : bytes[i]? = some b)
    (hascii : b < 0x80) : isCharBoundary bytes i = true := by
  have hnot : isContinuation b = false := by
    unfold isContinuation
    rw [Bool.and_eq_false_iff]
    exact .inl (decide_eq_false (UInt8.not_le.mpr hascii))
  unfold isCharBoundary
  rw [h]
  simp [hnot]

/-- The byte at a boundary decides whether the next place is one. -/
theorem isCharBoundary_succ {cs : List Char} {i : Nat} {b : UInt8} (h : isCharBoundary (encode cs) i = true)
    (hb : (encode cs)[i]? = some b) : isCharBoundary (encode cs) (i + 1) = true ↔ b < 0x80 := by
  obtain ⟨front, back, rfl, rfl⟩ := exists_split h
  rw [encode_append, List.getElem?_append_right (Nat.le_refl _), Nat.sub_self] at hb
  cases back with
  | nil => exact nomatch hb
  | cons c back =>
    obtain ⟨first, rest, heq, hfirst, hrest⟩ := utf8EncodeChar_eq c
    rw [encode_cons, heq, List.cons_append, List.getElem?_cons_zero] at hb
    cases hb
    have hone : rest = [] ↔ b < 0x80 := utf8EncodeChar_ascii heq
    constructor
    · intro hnext
      rw [← hone]
      cases rest with
      | nil => rfl
      | cons x rest =>
        -- the next byte continues the character
        have hbyte : (encode (front ++ c :: back))[(encode front).length + 1]? = some x := by
          rw [encode_append, List.getElem?_append_right (Nat.le_add_right _ 1), Nat.add_sub_cancel_left, encode_cons,
            heq]
          rfl
        unfold isCharBoundary at hnext
        rw [hbyte] at hnext
        simp only [hrest x List.mem_cons_self, Bool.not_true, Bool.or_false, decide_eq_true_eq] at hnext
        exact absurd hnext (Nat.succ_ne_zero _)
    · intro hascii
      have hlength : (encode (front ++ [c])).length = (encode front).length + 1 := by
        rw [encode_append, List.length_append, encode_cons, heq, hone.mpr hascii]
        rfl
      have hcut := isCharBoundary_append (front ++ [c]) back
      rwa [List.append_assoc, List.singleton_append, hlength] at hcut

/-- A place after a byte below `0x80` is a boundary. -/
theorem isCharBoundary_after {cs : List Char} {i : Nat} {b : UInt8} (hb : (encode cs)[i]? = some b)
    (hascii : b < 0x80) : isCharBoundary (encode cs) (i + 1) = true :=
  (isCharBoundary_succ (isCharBoundary_ascii hb hascii) hb).mpr hascii

/-! ### Slices -/

/-- The bytes of a string are the bytes of its characters. -/
theorem asBytes_eq (s : String) : s.asBytes = encode s.toList := by
  obtain ⟨cs, rfl⟩ := s.exists_eq_ofList
  rw [String.toList_ofList]
  unfold String.asBytes String.ofList List.utf8Encode
  rw [List.data_toByteArray]
  rfl

/-- A string from the bytes of characters. -/
theorem isValidUTF8_encode (cs : List Char) : (encode cs).toByteArray.IsValidUTF8 :=
  .intro cs rfl

theorem asBytes_join (pieces : List String) : (String.join pieces).asBytes = pieces.flatMap String.asBytes := by
  induction pieces with
  | nil => rfl
  | cons piece pieces ih =>
    rw [String.join_cons, List.flatMap_cons, ← ih, asBytes_eq, asBytes_eq, asBytes_eq, String.toList_append]
    exact List.flatMap_append

theorem isValidUTF8_slice {s : String} {lo hi : Nat} (hlo : isCharBoundary s.asBytes lo = true)
    (hhi : isCharBoundary s.asBytes hi = true) :
    ((s.asBytes.drop lo).take (hi - lo)).toByteArray.IsValidUTF8 := by
  rw [asBytes_eq] at hlo hhi ⊢
  obtain ⟨front, back, hcs, rfl⟩ := exists_split hlo
  rw [hcs, encode_append] at hhi ⊢
  rw [List.drop_left]
  by_cases hle : (encode front).length ≤ hi
  · obtain ⟨middle, rest, rfl, hlength⟩ := exists_split (isCharBoundary_sub hhi hle)
    rw [← hlength, encode_append, List.take_left]
    exact isValidUTF8_encode middle
  · rw [Nat.sub_eq_zero_of_le (Nat.le_of_not_le hle), List.take_zero]
    exact isValidUTF8_encode []

/-- `&s[lo..hi]` -/
def slice {ε : Type} (s : String) (lo hi : Nat) : Outcome ε String :=
  if h : lo ≤ hi ∧ isCharBoundary s.asBytes lo = true ∧ isCharBoundary s.asBytes hi = true then
    .ok ⟨((s.asBytes.drop lo).take (hi - lo)).toByteArray, isValidUTF8_slice h.2.1 h.2.2⟩
  else .error (.panic .outOfRange)

/-! ### Lossy decoding -/

/-- The bytes that one replacement character stands for: the longest start of a character, at
least one byte. -/
def brokenLength : List UInt8 → Nat
  | b :: c :: rest =>
    let second : Bool :=
      if b = 0xE0 then 0xA0 ≤ c && c < 0xC0
      else if b = 0xED then 0x80 ≤ c && c < 0xA0
      else if b = 0xF0 then 0x90 ≤ c && c < 0xC0
      else if b = 0xF4 then 0x80 ≤ c && c < 0x90
      else isContinuation c
    if 0xE0 ≤ b && b < 0xF0 && second then 2
    else if 0xF0 ≤ b && b < 0xF5 && second then
      if rest.head?.any isContinuation then 3 else 2
    else 1
  | _ => 1

def lossyChars : List UInt8 → List Char
  | [] => []
  | b :: rest =>
    match (b :: rest).toByteArray.utf8DecodeChar? 0 with
    | some c => c :: lossyChars (rest.drop (c.utf8Size - 1))
    | none => '\uFFFD' :: lossyChars (rest.drop (brokenLength (b :: rest) - 1))
termination_by bytes => bytes.length
decreasing_by all_goals simp only [List.length_drop, List.length_cons]; omega

/-- `String::from_utf8_lossy` -/
def fromUtf8Lossy (bytes : List UInt8) : String :=
  String.ofList (lossyChars bytes)

theorem lossyChars_encode (cs : List Char) : lossyChars (encode cs) = cs := by
  induction cs with
  | nil => rw [encode_nil, lossyChars]
  | cons c cs ih =>
    obtain ⟨b, rest, heq, -⟩ := utf8EncodeChar_eq c
    have hsize : rest.length = c.utf8Size - 1 := by
      have hlength := String.length_utf8EncodeChar c
      rw [heq, List.length_cons] at hlength
      omega
    have hdecode : (b :: (rest ++ encode cs)).toByteArray.utf8DecodeChar? 0 = some c := by
      have happend := @ByteArray.utf8DecodeChar?_utf8EncodeChar_append (encode cs).toByteArray c
      rwa [heq, ← List.toByteArray_append] at happend
    rw [encode_cons, heq, List.cons_append, lossyChars, hdecode]
    dsimp only
    rw [← hsize, List.drop_left, ih]

/-- Nothing is lost of a string. -/
theorem fromUtf8Lossy_asBytes (s : String) : fromUtf8Lossy s.asBytes = s := by
  unfold fromUtf8Lossy
  rw [asBytes_eq, lossyChars_encode, String.ofList_toList]

/-! ### Broken byte strings -/

/-- The whole characters in front, and what comes behind them. -/
def splitValid : List UInt8 → List Char × List UInt8
  | [] => ([], [])
  | b :: rest =>
    match (b :: rest).toByteArray.utf8DecodeChar? 0 with
    | some c =>
      let split := splitValid (rest.drop (c.utf8Size - 1))
      (c :: split.1, split.2)
    | none => ([], b :: rest)
termination_by bytes => bytes.length
decreasing_by simp only [List.length_drop, List.length_cons]; omega

theorem brokenLength_pos (bytes : List UInt8) : 0 < brokenLength bytes := by
  unfold brokenLength
  split
  next => dsimp only; split_ifs <;> omega
  next => exact Nat.one_pos

theorem brokenLength_le {bytes : List UInt8} (h : bytes ≠ []) : brokenLength bytes ≤ bytes.length := by
  match bytes, h with
  | [b], _ => exact Nat.le_refl 1
  | b :: c :: rest, _ =>
    have hthree : rest.head?.any isContinuation = true → 3 ≤ rest.length + 1 + 1 := by
      intro hany
      cases rest with
      | nil => cases hany
      | cons d rest => simp
    unfold brokenLength
    dsimp only
    rw [List.length_cons, List.length_cons]
    split_ifs <;> first | omega | exact hthree ‹_›

/-- A decoded character is in front. -/
theorem eq_encode_of_decode {b : UInt8} {rest : List UInt8} {c : Char}
    (h : (b :: rest).toByteArray.utf8DecodeChar? 0 = some c) :
    b :: rest = String.utf8EncodeChar c ++ rest.drop (c.utf8Size - 1) := by
  obtain ⟨l, hl⟩ := ByteArray.exists_of_utf8DecodeChar?_eq_some h
  have hbytes := congrArg (fun bytes : ByteArray => bytes.data.toList) hl
  simp only [ByteArray.data_append, Array.toList_append, List.data_toByteArray] at hbytes
  have hsize := String.length_utf8EncodeChar c
  have hdrop := congrArg (List.drop c.utf8Size) hbytes
  obtain ⟨k, hk⟩ : ∃ k, c.utf8Size = k + 1 := ⟨_, (Nat.succ_pred_eq_of_pos c.utf8Size_pos).symm⟩
  rw [← hsize, List.drop_left, hsize, hk, List.drop_succ_cons] at hdrop
  rw [hbytes, ← hdrop, hk, Nat.add_sub_cancel]

/-- Nothing is lost. -/
theorem encode_splitValid (bytes : List UInt8) : encode (splitValid bytes).1 ++ (splitValid bytes).2 = bytes := by
  induction bytes using splitValid.induct with
  | case1 => simp [splitValid]
  | case2 b rest c hdecode ih =>
    rw [splitValid, hdecode]
    dsimp only
    rw [encode_cons, List.append_assoc, ih, ← eq_encode_of_decode hdecode]
  | case3 b rest hnone =>
    rw [splitValid, hnone]
    rfl

/-- `from_utf8_lossy` is the characters in front, a replacement, and the same behind it. -/
theorem lossyChars_split (bytes : List UInt8) :
    lossyChars bytes = (splitValid bytes).1 ++
      if (splitValid bytes).2 = [] then []
      else '\uFFFD' :: lossyChars ((splitValid bytes).2.drop (brokenLength (splitValid bytes).2)) := by
  induction bytes using splitValid.induct with
  | case1 => simp [splitValid, lossyChars]
  | case2 b rest c hdecode ih =>
    rw [splitValid, lossyChars, hdecode]
    dsimp only
    rw [ih, List.cons_append]
  | case3 b rest hnone =>
    obtain ⟨k, hk⟩ : ∃ k, brokenLength (b :: rest) = k + 1 :=
      ⟨_, (Nat.succ_pred_eq_of_pos (brokenLength_pos (b :: rest))).symm⟩
    rw [splitValid, lossyChars, hnone]
    dsimp only
    rw [List.nil_append, if_neg (List.cons_ne_nil b rest), hk, List.drop_succ_cons, Nat.add_sub_cancel]

/-- The first character of an encoded list. -/
theorem decode_encode_cons (c : Char) (cs : List Char) :
    ∃ b rest, encode (c :: cs) = b :: rest ∧ (b :: rest).toByteArray.utf8DecodeChar? 0 = some c ∧
      rest.drop (c.utf8Size - 1) = encode cs := by
  obtain ⟨b, rest, heq, -⟩ := utf8EncodeChar_eq c
  have hsize : rest.length = c.utf8Size - 1 := by
    have hlength := String.length_utf8EncodeChar c
    rw [heq, List.length_cons] at hlength
    omega
  refine ⟨b, rest ++ encode cs, by rw [encode_cons, heq, List.cons_append], ?_, by rw [← hsize, List.drop_left]⟩
  have happend := @ByteArray.utf8DecodeChar?_utf8EncodeChar_append (encode cs).toByteArray c
  rwa [heq, ← List.toByteArray_append] at happend

/-- A string is whole characters. -/
theorem splitValid_encode (cs : List Char) : splitValid (encode cs) = (cs, []) := by
  induction cs with
  | nil => rw [encode_nil, splitValid]
  | cons c cs ih =>
    obtain ⟨b, rest, heq, hdecode, hrest⟩ := decode_encode_cons c cs
    rw [heq, splitValid, hdecode]
    dsimp only
    rw [hrest, ih]

end Utf8
