import VitniTensor.Tokenizer.Pretokenize

/-!
# Where the pretokenizer cuts

The look-ahead behind an apostrophe takes two or three bytes, whatever characters they belong to.
Everywhere else the scan stops next to an ASCII byte. So a text is cut at character boundaries
exactly when no apostrophe that starts a piece has a non-ASCII character in its look-ahead.
-/

namespace VitniTensor

open Outcome Utf8

namespace Pretokenize

/-! ### The classes are disjoint -/

private theorem forall_byte {P : UInt8 → Prop} (h : ∀ n < 256, P (UInt8.ofNat n)) (x : UInt8) : P x := by
  have hx := h x.toNat x.toNat_lt
  rwa [UInt8.ofNat_toNat] at hx

/-- The table of the classes, byte by byte. -/
private theorem class_table : ∀ x : UInt8,
    (isLetter x = true → isSpace x = false ∧ isPunct x = false) ∧
      (isDigit x = true → isSpace x = false ∧ isPunct x = false) ∧
      (isPunct x = true → isSpace x = false ∧ isLetter x = false ∧ isDigit x = false) ∧
      (isSpace x = true → isPunct x = false ∧ isLetter x = false ∧ isDigit x = false) ∧
      (isLetter x = true ∨ isDigit x = true ∨ isPunct x = true ∨ isSpace x = true) := by
  refine forall_byte ?_
  decide +kernel

private theorem ascii_table : ∀ x : UInt8,
    (isDigit x = true → x < 0x80) ∧ (isLetter x = false → x < 0x80) ∧
      (toAsciiLowercase x ∈ ([0x73, 0x74, 0x6D, 0x64, 0x72, 0x76, 0x6C, 0x65] : List UInt8) →
        isLetter x = true ∧ x < 0x80) := by
  refine forall_byte ?_
  decide +kernel

theorem letter_class (x : UInt8) (h : isLetter x = true) : isSpace x = false ∧ isPunct x = false :=
  (class_table x).1 h

theorem digit_class (x : UInt8) (h : isDigit x = true) : isSpace x = false ∧ isPunct x = false :=
  (class_table x).2.1 h

theorem punct_class (x : UInt8) (h : isPunct x = true) : isSpace x = false ∧ isLetter x = false ∧ isDigit x = false :=
  (class_table x).2.2.1 h

theorem space_class (x : UInt8) (h : isSpace x = true) : isPunct x = false ∧ isLetter x = false ∧ isDigit x = false :=
  (class_table x).2.2.2.1 h

theorem class_cases (x : UInt8) :
    isLetter x = true ∨ isDigit x = true ∨ isPunct x = true ∨ isSpace x = true :=
  (class_table x).2.2.2.2

theorem digit_ascii (x : UInt8) (h : isDigit x = true) : x < 0x80 :=
  (ascii_table x).1 h

/-- Only letters are not ASCII. -/
theorem ascii_of_not_letter (x : UInt8) (h : isLetter x = false) : x < 0x80 :=
  (ascii_table x).2.1 h

theorem letter_of_lowercase (x : UInt8)
    (h : toAsciiLowercase x ∈ ([0x73, 0x74, 0x6D, 0x64, 0x72, 0x76, 0x6C, 0x65] : List UInt8)) :
    isLetter x = true ∧ x < 0x80 :=
  (ascii_table x).2.2 h

/-! ### The bad apostrophes -/

/-- Whether an apostrophe at `i` would start a piece: it follows no punctuation, and no single
space. -/
def startsPiece (b : List UInt8) (i : Nat) : Bool :=
  i = 0 || holdsAt isLetter b (i - 1) || holdsAt isDigit b (i - 1) ||
    (holdsAt isSpace b (i - 1) && !(b[i - 1]? = some 0x20 && (i = 1 || !holdsAt isSpace b (i - 2))))

/-- Whether a non-ASCII character follows place `i`, or the second place after it when the byte
between makes no contraction. -/
def splitsChar (b : List UInt8) (i : Nat) : Bool :=
  match b[i + 1]? with
  | none => false
  | some x => 0x80 ≤ x ||
      (!(toAsciiLowercase x ∈ ([0x73, 0x74, 0x6D, 0x64] : List UInt8)) && holdsAt (0x80 ≤ ·) b (i + 2))

/-- An apostrophe that starts a piece. -/
def ApostropheStart (b : List UInt8) (i : Nat) : Prop :=
  b[i]? = some 0x27 ∧ startsPiece b i = true

/-! ### Between two turns -/

/-- What is known of the place where a turn starts: no run of spaces or of punctuation goes on
there, and a single space is never left behind. -/
structure Fresh (b : List UInt8) (i : Nat) : Prop where
  spaces : 0 < i → holdsAt isSpace b (i - 1) = true → holdsAt isSpace b i = false
  puncts : 0 < i → holdsAt isPunct b (i - 1) = true → holdsAt isPunct b i = false
  single : 0 < i → b[i - 1]? = some 0x20 → (i = 1 ∨ holdsAt isSpace b (i - 2) = false) → b.length ≤ i

theorem fresh_zero (b : List UInt8) : Fresh b 0 :=
  ⟨fun h => absurd h (Nat.lt_irrefl 0), fun h => absurd h (Nat.lt_irrefl 0), fun h => absurd h (Nat.lt_irrefl 0)⟩

/-- After a letter or a digit. -/
theorem fresh_after {b : List UInt8} {i : Nat} {x : UInt8} (hx : b[i - 1]? = some x) (hspace : isSpace x = false)
    (hpunct : isPunct x = false) : Fresh b i := by
  -- Neither a space nor punctuation before `i`, so no run reaches over the cut.
  refine ⟨fun _ h => ?_, fun _ h => ?_, fun _ h _ => ?_⟩
  · obtain ⟨y, hy, h⟩ := holdsAt_iff.mp h
    rw [hx] at hy
    cases hy
    exact absurd h (by rw [hspace]; exact Bool.false_ne_true)
  · obtain ⟨y, hy, h⟩ := holdsAt_iff.mp h
    rw [hx] at hy
    cases hy
    exact absurd h (by rw [hpunct]; exact Bool.false_ne_true)
  · rw [hx] at h
    cases h
    exact absurd hspace (by decide)

/-- An apostrophe where a turn starts is one that starts a piece. -/
theorem Fresh.startsPiece {b : List UInt8} {i : Nat} (h : Fresh b i) (hquote : b[i]? = some 0x27) :
    startsPiece b i = true := by
  have hi : i < b.length := (List.getElem?_eq_some_iff.mp hquote).1
  unfold Pretokenize.startsPiece
  rcases Nat.eq_zero_or_pos i with rfl | hpos
  · rfl
  · have hlt : i - 1 < b.length := by omega
    have hbyte : b[i - 1]? = some b[i - 1] := List.getElem?_eq_getElem hlt
    have hat : ∀ p : UInt8 → Bool, holdsAt p b (i - 1) = p b[i - 1] := by
      intro p
      unfold holdsAt
      rw [hbyte]
      rfl
    rcases class_cases b[i - 1] with hc | hc | hc | hc
    · simp [hat, hc]
    · simp [hat, hc]
    · -- a run of punctuation would have gone on
      have hnot := h.puncts hpos (by rw [hat, hc])
      unfold holdsAt at hnot
      rw [hquote] at hnot
      exact absurd hnot (by decide)
    · simp only [hat, hc, Bool.true_and, Bool.or_eq_true, Bool.not_eq_true', Bool.and_eq_false_iff]
      right
      by_contra hboth
      rw [not_or] at hboth
      obtain ⟨hspace, hsingle⟩ := hboth
      have hspace' := of_decide_eq_true (Bool.not_eq_false _ ▸ hspace)
      have hsingle' : i = 1 ∨ holdsAt isSpace b (i - 2) = false :=
        Decidable.or_iff_not_imp_left.mpr (by simpa using hsingle)
      have := h.single hpos hspace' hsingle'
      omega

/-! ### The look-ahead of a contraction -/

private theorem take_two {b : List UInt8} {i : Nat} {x y : UInt8} (hx : b[i]? = some x) (hy : b[i + 1]? = some y) :
    (b.drop i).take 2 = [x, y] := by
  obtain ⟨hi, rfl⟩ := List.getElem?_eq_some_iff.mp hx
  obtain ⟨hj, rfl⟩ := List.getElem?_eq_some_iff.mp hy
  rw [List.drop_eq_getElem_cons hi, List.drop_eq_getElem_cons hj]
  rfl

private theorem take_three {b : List UInt8} {i : Nat} {x y z : UInt8} (hx : b[i]? = some x)
    (hy : b[i + 1]? = some y) (hz : b[i + 2]? = some z) : (b.drop i).take 3 = [x, y, z] := by
  obtain ⟨hi, rfl⟩ := List.getElem?_eq_some_iff.mp hx
  rw [List.drop_eq_getElem_cons hi, List.take_succ_cons, take_two hy hz]

/-- A slice whose ends are boundaries. -/
theorem slice_ok {text : String} {lo hi : Nat} (hle : lo ≤ hi)
    (hlo : isCharBoundary text.asBytes lo = true) (hhi : isCharBoundary text.asBytes hi = true) :
    ∃ s, (slice text lo hi : Res String) = .ok s ∧ s.asBytes = (text.asBytes.drop lo).take (hi - lo) := by
  refine ⟨_, dif_pos ⟨hle, hlo, hhi⟩, ?_⟩
  unfold String.asBytes
  rw [List.data_toByteArray]

private theorem slice_panics {text : String} {lo hi : Nat} (hhi : isCharBoundary text.asBytes hi = false) :
    (slice text lo hi : Res String) = panic .outOfRange :=
  dif_neg fun h => absurd h.2.2 (by rw [hhi]; exact Bool.false_ne_true)

theorem boundary_succ {text : String} {i : Nat} {x : UInt8} (h : isCharBoundary text.asBytes i = true)
    (hx : text.asBytes[i]? = some x) : isCharBoundary text.asBytes (i + 1) = true ↔ x < 0x80 := by
  rw [asBytes_eq] at h hx ⊢
  exact isCharBoundary_succ h hx

theorem boundary_after {text : String} {i : Nat} {x : UInt8} (hx : text.asBytes[i]? = some x) (hascii : x < 0x80) :
    isCharBoundary text.asBytes (i + 1) = true := by
  rw [asBytes_eq] at hx ⊢
  exact isCharBoundary_after hx hascii

/-- No apostrophe, no look-ahead. -/
theorem contraction_none {text : String} {start : Nat} {c : UInt8} (hc : c ≠ 0x27) :
    contraction text start c = .ok none := by
  unfold contraction
  rw [if_neg fun h => hc h.1]
  rfl

private theorem two_mem {two : String} {x : UInt8} (h : two.asBytes = [0x27, x]) :
    lowercase two ∈ ["'s".asBytes, "'t".asBytes, "'m".asBytes, "'d".asBytes] ↔
      toAsciiLowercase x ∈ ([0x73, 0x74, 0x6D, 0x64] : List UInt8) := by
  have hquote : toAsciiLowercase 0x27 = 0x27 := rfl
  have hs : "'s".asBytes = [0x27, 0x73] := rfl
  have ht : "'t".asBytes = [0x27, 0x74] := rfl
  have hm : "'m".asBytes = [0x27, 0x6D] := rfl
  have hd : "'d".asBytes = [0x27, 0x64] := rfl
  unfold lowercase
  rw [h, hs, ht, hm, hd]
  simp [hquote]

private theorem three_mem {three : String} {x y : UInt8} (h : three.asBytes = [0x27, x, y])
    (hmem : lowercase three ∈ ["'re".asBytes, "'ve".asBytes, "'ll".asBytes]) :
    (isLetter x = true ∧ x < 0x80) ∧ isLetter y = true ∧ y < 0x80 := by
  -- The three contractions of three bytes.
  have hr : "'re".asBytes = [0x27, 0x72, 0x65] := rfl
  have hv : "'ve".asBytes = [0x27, 0x76, 0x65] := rfl
  have hl : "'ll".asBytes = [0x27, 0x6C, 0x6C] := rfl
  unfold lowercase at hmem
  rw [h, hr, hv, hl] at hmem
  simp only [List.map_cons, List.map_nil, List.mem_cons, List.cons.injEq, List.not_mem_nil, or_false,
    and_true] at hmem
  -- Either byte, lowered, is one of the letters the contractions use.
  have hx : toAsciiLowercase x ∈ ([0x73, 0x74, 0x6D, 0x64, 0x72, 0x76, 0x6C, 0x65] : List UInt8) := by
    rcases hmem with ⟨-, hx, -⟩ | ⟨-, hx, -⟩ | ⟨-, hx, -⟩ <;> simp [hx]
  have hy : toAsciiLowercase y ∈ ([0x73, 0x74, 0x6D, 0x64, 0x72, 0x76, 0x6C, 0x65] : List UInt8) := by
    rcases hmem with ⟨-, -, hy⟩ | ⟨-, -, hy⟩ | ⟨-, -, hy⟩ <;> simp [hy]
  exact ⟨letter_of_lowercase x hx, letter_of_lowercase y hy⟩

/-- What a contraction leaves behind it is a letter. -/
structure EndsContraction (b : List UInt8) (start stop : Nat) : Prop where
  lt : start + 1 < stop
  le : stop ≤ b.length
  letters : ∀ k, start < k → k < stop → ∃ x, b[k]? = some x ∧ isLetter x = true ∧ x < 0x80

theorem contraction_spec {text : String} {start : Nat} (hstart : isCharBoundary text.asBytes start = true)
    (hquote : text.asBytes[start]? = some 0x27) :
    (splitsChar text.asBytes start = true ∧ contraction text start 0x27 = panic .outOfRange) ∨
      (splitsChar text.asBytes start = false ∧ ∃ r, contraction text start 0x27 = .ok r ∧
        ∀ stop, r = some stop → EndsContraction text.asBytes start stop) := by
  have hone : isCharBoundary text.asBytes (start + 1) = true := (boundary_succ hstart hquote).mpr (by decide)
  cases hx : text.asBytes[start + 1]? with
  | none =>
    -- the apostrophe is the last byte
    right
    have hend := List.getElem?_eq_none_iff.mp hx
    refine ⟨by unfold splitsChar; rw [hx], none, ?_, fun stop h => nomatch h⟩
    unfold contraction
    rw [if_neg fun h => absurd h.2 (by omega)]
    rfl
  | some x =>
    have hlt := (List.getElem?_eq_some_iff.mp hx).1
    have hmin : min (start + 2) text.asBytes.length = start + 2 := by omega
    unfold contraction splitsChar
    simp only [hx, true_and, if_pos hlt, hmin]
    by_cases hascii : x < 0x80
    · have htwo : isCharBoundary text.asBytes (start + 2) = true := (boundary_succ hone hx).mpr hascii
      obtain ⟨two, heq, hbytes⟩ := slice_ok (Nat.le_add_right start 2) hstart htwo
      rw [Nat.add_sub_cancel_left, take_two hquote hx] at hbytes
      rw [heq, ok_bind, decide_eq_false (UInt8.not_le.mpr hascii)]
      simp only [two_mem hbytes, Bool.false_or]
      by_cases hshort : toAsciiLowercase x ∈ ([0x73, 0x74, 0x6D, 0x64] : List UInt8)
      · right
        rw [if_pos hshort, decide_eq_true hshort]
        refine ⟨rfl, some (start + 2), rfl, fun stop h => ?_⟩
        cases h
        refine ⟨by omega, by omega, fun k hk hk' => ⟨x, ?_, letter_of_lowercase x ?_⟩⟩
        · rw [show k = start + 1 by omega, hx]
        · exact List.mem_append_left [0x72, 0x76, 0x6C, 0x65] hshort
      · rw [if_neg hshort, decide_eq_false hshort, Bool.not_false, Bool.true_and]
        cases hy : text.asBytes[start + 2]? with
        | none =>
          right
          have hend := List.getElem?_eq_none_iff.mp hy
          refine ⟨by unfold holdsAt; rw [hy]; rfl, none, if_neg (by omega), fun stop h => nomatch h⟩
        | some y =>
          have hlt' := (List.getElem?_eq_some_iff.mp hy).1
          rw [if_pos (show start + 3 ≤ text.asBytes.length by omega)]
          by_cases hascii' : y < 0x80
          · right
            have hthree : isCharBoundary text.asBytes (start + 3) = true := (boundary_succ htwo hy).mpr hascii'
            obtain ⟨three, heq', hbytes'⟩ := slice_ok (Nat.le_add_right start 3) hstart hthree
            rw [Nat.add_sub_cancel_left, take_three hquote hx hy] at hbytes'
            refine ⟨by unfold holdsAt; rw [hy]; exact decide_eq_false (UInt8.not_le.mpr hascii'), ?_⟩
            rw [heq', ok_bind]
            split
            next hlong =>
              obtain ⟨hx', hy'⟩ := three_mem hbytes' hlong
              refine ⟨some (start + 3), rfl, fun stop h => ?_⟩
              cases h
              refine ⟨by omega, by omega, fun k hk hk' => ?_⟩
              rcases (by omega : k = start + 1 ∨ k = start + 2) with rfl | rfl
              · exact ⟨x, hx, hx'⟩
              · exact ⟨y, hy, hy'⟩
            next => exact ⟨none, rfl, fun stop h => nomatch h⟩
          · left
            have hcut : isCharBoundary text.asBytes (start + 3) = false :=
              Bool.eq_false_iff.mpr fun h => hascii' ((boundary_succ htwo hy).mp h)
            refine ⟨by unfold holdsAt; rw [hy]; exact decide_eq_true (UInt8.not_lt.mp hascii'), ?_⟩
            rw [slice_panics hcut]
            rfl
    · left
      have hcut : isCharBoundary text.asBytes (start + 2) = false :=
        Bool.eq_false_iff.mpr fun h => hascii ((boundary_succ hone hx).mp h)
      refine ⟨by rw [decide_eq_true (UInt8.not_lt.mp hascii), Bool.true_or], ?_⟩
      rw [slice_panics hcut]
      rfl

/-! ### Runs -/

/-- A run of `p` from `first` on, behind at most a space. -/
structure Run (p : UInt8 → Bool) (b : List UInt8) (start stop : Nat) : Prop where
  first : ∃ first, first < stop ∧ (first = start ∨ (first = start + 1 ∧ b[start]? = some 0x20)) ∧
    ∀ k, first ≤ k → k < stop → holdsAt p b k = true
  stops : holdsAt p b stop = false

theorem takeRun_spec {p : UInt8 → Bool} (hspace : p 0x20 = false)
    (hedge : (∀ x, p x = false → x < 0x80) ∨ (∀ x, p x = true → x < 0x80)) {text : String} {start : Nat} {c : UInt8}
    (hstart : isCharBoundary text.asBytes start = true) (hc : text.asBytes[start]? = some c)
    (hopen : startsRun p text.asBytes start c = true) :
    ∃ piece stop, takeRun p text start c = .ok (some piece, stop) ∧ start < stop ∧
      isCharBoundary text.asBytes stop = true ∧
      piece.asBytes = (text.asBytes.drop start).take (stop - start) ∧ Run p text.asBytes start stop := by
  have hlt : start < text.asBytes.length := (List.getElem?_eq_some_iff.mp hc).1
  -- where the run proper starts
  obtain ⟨first, hfirst, hholds, hwhere⟩ : ∃ first, (if c = 0x20 then start + 1 else start) = first ∧
      holdsAt p text.asBytes first = true ∧ (first = start ∨ (first = start + 1 ∧ text.asBytes[start]? = some 0x20)) := by
    unfold startsRun at hopen
    by_cases hc' : c = 0x20
    · subst hc'
      rw [hspace, Bool.or_false, decide_eq_true rfl, Bool.true_and] at hopen
      exact ⟨start + 1, if_pos rfl, hopen, .inr ⟨rfl, hc⟩⟩
    · rw [decide_eq_false hc', Bool.false_and, Bool.false_or] at hopen
      exact ⟨start, if_neg hc', holdsAt_iff.mpr ⟨c, hc, hopen⟩, .inl rfl⟩
  have hge : start ≤ first := by
    rcases hwhere with rfl | ⟨rfl, -⟩
    · exact Nat.le_refl first
    · exact Nat.le_succ start
  have hinside : first ≤ text.asBytes.length := by
    obtain ⟨x, hx, -⟩ := holdsAt_iff.mp hholds
    exact Nat.le_of_lt (List.getElem?_eq_some_iff.mp hx).1
  obtain ⟨hle, hrun, hstop⟩ := skipWhile_spec p hinside
  have hmore := lt_skipWhile hholds
  have hboundary : isCharBoundary text.asBytes (skipWhile p text.asBytes first) = true := by
    rcases hedge with hnext | hlast
    · -- the byte after the run is ASCII
      cases hx : text.asBytes[skipWhile p text.asBytes first]? with
      | none =>
        have hend := List.getElem?_eq_none_iff.mp hx
        rw [Nat.le_antisymm hle hend]
        exact isCharBoundary_length _
      | some x =>
        unfold holdsAt at hstop
        rw [hx] at hstop
        exact isCharBoundary_ascii hx (hnext x hstop)
    · -- the last byte of the run is ASCII
      obtain ⟨x, hx, hpx⟩ := holdsAt_iff.mp (hrun (skipWhile p text.asBytes first - 1) (by omega) (by omega))
      have hafter := boundary_after hx (hlast x hpx)
      rwa [Nat.sub_add_cancel (by omega)] at hafter
  obtain ⟨piece, heq, hbytes⟩ := slice_ok (show start ≤ skipWhile p text.asBytes first by omega) hstart hboundary
  refine ⟨piece, _, ?_, by omega, hboundary, hbytes, ⟨first, hmore, hwhere, hrun⟩, hstop⟩
  unfold takeRun
  dsimp only
  rw [hfirst, heq]
  rfl

/-! ### One turn -/

/-- A good turn: a nonempty piece up to a boundary, with no apostrophe in it that could have
started one. -/
structure Cut (text : String) (start : Nat) (piece : String) (stop : Nat) : Prop where
  lt : start < stop
  boundary : isCharBoundary text.asBytes stop = true
  bytes : piece.asBytes = (text.asBytes.drop start).take (stop - start)
  fresh : Fresh text.asBytes stop
  quiet : ∀ k, start < k → k < stop → ¬ApostropheStart text.asBytes k

private theorem quiet_of_holdsAt {p : UInt8 → Bool} (hp : p 0x27 = false) {b : List UInt8} {k : Nat}
    (h : holdsAt p b k = true) : ¬ApostropheStart b k := by
  rintro ⟨hquote, -⟩
  unfold holdsAt at h
  rw [hquote] at h
  exact absurd h (by simp [hp])

/-- The last byte of a run. -/
private theorem Run.last {p : UInt8 → Bool} {b : List UInt8} {start stop : Nat} (h : Run p b start stop) :
    ∃ x, b[stop - 1]? = some x ∧ p x = true := by
  obtain ⟨first, hlt, -, hrun⟩ := h.first
  exact holdsAt_iff.mp (hrun (stop - 1) (by omega) (by omega))

/-- A run of letters or of digits. -/
private theorem Run.cut {p : UInt8 → Bool} (hp : p 0x27 = false)
    (hclass : ∀ x, p x = true → isSpace x = false ∧ isPunct x = false) {text : String} {start stop : Nat} {piece : String}
    (hlt : start < stop) (hboundary : isCharBoundary text.asBytes stop = true)
    (hbytes : piece.asBytes = (text.asBytes.drop start).take (stop - start)) (h : Run p text.asBytes start stop) :
    Cut text start piece stop := by
  obtain ⟨x, hx, hpx⟩ := h.last
  obtain ⟨first, -, hwhere, hrun⟩ := h.first
  refine ⟨hlt, hboundary, hbytes, fresh_after hx (hclass x hpx).1 (hclass x hpx).2, fun k hk hk' => ?_⟩
  apply quiet_of_holdsAt hp
  apply hrun k _ hk'
  omega

/-- A run of punctuation: an apostrophe in it follows punctuation or a single space. -/
private theorem Run.cut_punct {text : String} {start stop : Nat} {piece : String} (hfresh : Fresh text.asBytes start)
    (hlt : start < stop) (hboundary : isCharBoundary text.asBytes stop = true)
    (hbytes : piece.asBytes = (text.asBytes.drop start).take (stop - start))
    (h : Run isPunct text.asBytes start stop) : Cut text start piece stop := by
  obtain ⟨x, hx, hpx⟩ := h.last
  obtain ⟨hspace, hletter, hdigit⟩ := punct_class x hpx
  obtain ⟨first, hfirst, hwhere, hrun⟩ := h.first
  refine ⟨hlt, hboundary, hbytes, ⟨fun _ hs => ?_, fun _ _ => h.stops, fun _ hs _ => ?_⟩, fun k hk hk' => ?_⟩
  · obtain ⟨y, hy, hs⟩ := holdsAt_iff.mp hs
    rw [hx] at hy
    cases hy
    exact absurd hs (by rw [hspace]; exact Bool.false_ne_true)
  · rw [hx] at hs
    cases hs
    exact absurd hspace (by decide)
  · rintro ⟨hquote, hstarts⟩
    unfold startsPiece at hstarts
    by_cases hspaced : k - 1 < first
    · -- the space before the run stands alone
      obtain ⟨rfl, hsp⟩ : first = start + 1 ∧ text.asBytes[start]? = some 0x20 := by
        rcases hwhere with rfl | hw
        · omega
        · exact hw
      obtain rfl : k = start + 1 := by omega
      have hat : ∀ p : UInt8 → Bool, holdsAt p text.asBytes start = p 0x20 := by
        intro p
        unfold holdsAt
        rw [hsp]
        rfl
      rw [Nat.add_sub_cancel, hat, hat, hat, hsp] at hstarts
      have hone : start = 0 ∨ holdsAt isSpace text.asBytes (start - 1) = false := by
        rcases Nat.eq_zero_or_pos start with hzero | hpos
        · exact .inl hzero
        · right
          rw [Bool.eq_false_iff]
          intro hprev
          have hnot := hfresh.spaces hpos hprev
          rw [hat] at hnot
          exact absurd hnot (by decide)
      have hback : start + 1 - 2 = start - 1 := by omega
      rw [hback] at hstarts
      rcases hone with rfl | hprev
      · simp [isLetter, isDigit] at hstarts
      · rw [hprev] at hstarts
        simp [isLetter, isDigit] at hstarts
    · obtain ⟨y, hy, hpy⟩ := holdsAt_iff.mp (hrun (k - 1) (by omega) (by omega))
      obtain ⟨hs, hl, hd⟩ := punct_class y hpy
      have hat : ∀ p : UInt8 → Bool, holdsAt p text.asBytes (k - 1) = p y := by
        intro p
        unfold holdsAt
        rw [hy]
        rfl
      rw [hat, hat, hat, hs, hl, hd, decide_eq_false (show ¬k = 0 by omega)] at hstarts
      exact absurd hstarts (by simp)

/-- A run of whitespace: when it is a single space, nothing follows. -/
private theorem cut_spaces {text : String} {start : Nat} {c : UInt8}
    (hstart : isCharBoundary text.asBytes start = true) (hc : text.asBytes[start]? = some c) (hspace : isSpace c = true)
    (hletter : startsRun isLetter text.asBytes start c = false) (hdigit : startsRun isDigit text.asBytes start c = false)
    (hpunct : startsRun isPunct text.asBytes start c = false) :
    ∃ piece, slice text start (skipWhile isSpace text.asBytes start) = (.ok piece : Res String) ∧
      Cut text start piece (skipWhile isSpace text.asBytes start) := by
  have hlt : start < text.asBytes.length := (List.getElem?_eq_some_iff.mp hc).1
  obtain ⟨hle, hrun, hstop⟩ := skipWhile_spec isSpace (Nat.le_of_lt hlt)
  have hmore := lt_skipWhile (holdsAt_iff.mpr ⟨c, hc, hspace⟩)
  generalize skipWhile isSpace text.asBytes start = stop at hle hrun hstop hmore ⊢
  obtain ⟨x, hx, hsx⟩ := holdsAt_iff.mp (hrun (stop - 1) (by omega) (by omega))
  obtain ⟨hpx, hlx, hdx⟩ := space_class x hsx
  have hboundary : isCharBoundary text.asBytes stop = true := by
    have hafter := boundary_after hx (ascii_of_not_letter x hlx)
    rwa [Nat.sub_add_cancel (by omega)] at hafter
  obtain ⟨piece, heq, hbytes⟩ := slice_ok (Nat.le_of_lt hmore) hstart hboundary
  refine ⟨piece, heq, hmore, hboundary, hbytes, ⟨fun _ _ => hstop, fun _ hp => ?_, fun _ hsp hsingle => ?_⟩,
    fun k hk hk' => quiet_of_holdsAt rfl (hrun k (by omega) hk')⟩
  · obtain ⟨y, hy, hp⟩ := holdsAt_iff.mp hp
    rw [hx] at hy
    cases hy
    exact absurd hp (by rw [hpx]; exact Bool.false_ne_true)
  · -- the run is this one space, and the byte after it would have joined it to another piece
    obtain rfl : stop = start + 1 := by
      by_contra hlong
      rcases hsingle with hone | hprev
      · omega
      · rw [hrun (stop - 2) (by omega) (by omega)] at hprev
        exact absurd hprev (by decide)
    rw [Nat.add_sub_cancel, hc] at hsp
    cases hsp
    have hnone : ∀ p : UInt8 → Bool, startsRun p text.asBytes start 0x20 = false →
        holdsAt p text.asBytes (start + 1) = false := by
      intro p h
      unfold startsRun at h
      simpa using (Bool.or_eq_false_iff.mp h).1
    by_contra hmore'
    have hbyte : text.asBytes[start + 1]? = some text.asBytes[start + 1] :=
      List.getElem?_eq_getElem (Nat.not_le.mp hmore')
    have hat : ∀ p : UInt8 → Bool, holdsAt p text.asBytes (start + 1) = p text.asBytes[start + 1] := by
      intro p
      unfold holdsAt
      rw [hbyte]
      rfl
    rcases class_cases text.asBytes[start + 1] with hcl | hcl | hcl | hcl
    · exact absurd (hnone _ hletter) (by rw [hat, hcl]; decide)
    · exact absurd (hnone _ hdigit) (by rw [hat, hcl]; decide)
    · exact absurd (hnone _ hpunct) (by rw [hat, hcl]; decide)
    · exact absurd hstop (by rw [hat, hcl]; decide)

/-- The branches behind the look-ahead. -/
private theorem nextPiece_of_none {text : String} {start : Nat} {c : UInt8} (hfresh : Fresh text.asBytes start)
    (hstart : isCharBoundary text.asBytes start = true) (hc : text.asBytes[start]? = some c)
    (hnone : contraction text start c = .ok none) :
    ∃ piece stop, nextPiece text start = .ok (some piece, stop) ∧ Cut text start piece stop := by
  unfold nextPiece
  dsimp only
  rw [index_eq_ok.mpr hc, ok_bind, hnone, ok_bind]
  dsimp only
  -- The branches of the source in order: letters, digits, punctuation, spaces.
  by_cases hletter : startsRun isLetter text.asBytes start c = true
  · rw [if_pos hletter]
    obtain ⟨piece, stop, heq, hlt, hboundary, hbytes, hrun⟩ :=
      takeRun_spec rfl (.inl ascii_of_not_letter) hstart hc hletter
    exact ⟨piece, stop, heq, hrun.cut rfl letter_class hlt hboundary hbytes⟩
  · rw [if_neg hletter]
    by_cases hdigit : startsRun isDigit text.asBytes start c = true
    · rw [if_pos hdigit]
      obtain ⟨piece, stop, heq, hlt, hboundary, hbytes, hrun⟩ :=
        takeRun_spec rfl (.inr digit_ascii) hstart hc hdigit
      exact ⟨piece, stop, heq, hrun.cut rfl digit_class hlt hboundary hbytes⟩
    · rw [if_neg hdigit]
      by_cases hpunct : startsRun isPunct text.asBytes start c = true
      · rw [if_pos hpunct]
        obtain ⟨piece, stop, heq, hlt, hboundary, hbytes, hrun⟩ :=
          takeRun_spec rfl (.inr fun x h => ascii_of_not_letter x (punct_class x h).2.1) hstart hc hpunct
        exact ⟨piece, stop, heq, hrun.cut_punct hfresh hlt hboundary hbytes⟩
      · rw [if_neg hpunct]
        -- A byte in none of the first three classes is a space.
        have hspace : isSpace c = true := by
          unfold startsRun at hletter hdigit hpunct
          simp only [Bool.or_eq_true, not_or] at hletter hdigit hpunct
          rcases class_cases c with hcl | hcl | hcl | hcl
          · exact absurd hcl hletter.2
          · exact absurd hcl hdigit.2
          · exact absurd hcl hpunct.2
          · exact hcl
        rw [if_pos hspace]
        obtain ⟨piece, heq, hcut⟩ := cut_spaces hstart hc hspace (Bool.eq_false_iff.mpr hletter)
          (Bool.eq_false_iff.mpr hdigit) (Bool.eq_false_iff.mpr hpunct)
        rw [heq, ok_bind]
        exact ⟨piece, _, rfl, hcut⟩

/-- A turn cuts a piece off, except at a bad apostrophe, where it panics. -/
theorem nextPiece_spec {text : String} {start : Nat} (hlt : start < text.asBytes.length)
    (hfresh : Fresh text.asBytes start) (hstart : isCharBoundary text.asBytes start = true) :
    (ApostropheStart text.asBytes start ∧ splitsChar text.asBytes start = true ∧
        nextPiece text start = panic .outOfRange) ∨
      (¬(ApostropheStart text.asBytes start ∧ splitsChar text.asBytes start = true) ∧
        ∃ piece stop, nextPiece text start = .ok (some piece, stop) ∧ Cut text start piece stop) := by
  have hc : text.asBytes[start]? = some text.asBytes[start] := List.getElem?_eq_getElem hlt
  generalize text.asBytes[start] = c at hc
  -- Only an apostrophe can start a contraction.
  by_cases hquote : c = 0x27
  · subst hquote
    have hstarts : ApostropheStart text.asBytes start := ⟨hc, hfresh.startsPiece hc⟩
    -- The slice `text[i..i + 2]` may end inside a character: then it panics.
    rcases contraction_spec hstart hc with ⟨hsplit, hpanic⟩ | ⟨hsplit, r, hr, hends⟩
    · refine .inl ⟨hstarts, hsplit, ?_⟩
      unfold nextPiece
      dsimp only
      rw [index_eq_ok.mpr hc, ok_bind, hpanic]
      rfl
    · refine .inr ⟨fun h => absurd h.2 (by rw [hsplit]; exact Bool.false_ne_true), ?_⟩
      cases r with
      | none => exact nextPiece_of_none hfresh hstart hc hr
      -- A contraction was found: it ends in ASCII letters, so behind it is a boundary.
      | some stop =>
        obtain ⟨hmore, hle, hletters⟩ := hends stop rfl
        obtain ⟨x, hx, hlx, hascii⟩ := hletters (stop - 1) (by omega) (by omega)
        have hboundary : isCharBoundary text.asBytes stop = true := by
          have hafter := boundary_after hx hascii
          rwa [Nat.sub_add_cancel (by omega)] at hafter
        obtain ⟨piece, heq, hbytes⟩ := slice_ok (show start ≤ stop by omega) hstart hboundary
        obtain ⟨hsx, hpx⟩ := letter_class x hlx
        -- Cutting it off leaves a fresh place, since a letter is before it.
        refine ⟨piece, stop, ?_, by omega, hboundary, hbytes, fresh_after hx hsx hpx, fun k hk hk' => ?_⟩
        · unfold nextPiece
          dsimp only
          rw [index_eq_ok.mpr hc, ok_bind, hr, ok_bind]
          dsimp only
          rw [heq]
          rfl
        · obtain ⟨y, hy, hly, -⟩ := hletters k hk hk'
          exact quiet_of_holdsAt (p := isLetter) rfl (holdsAt_iff.mpr ⟨y, hy, hly⟩)
  -- Anything else goes through the runs.
  · refine .inr ⟨fun h => hquote (Option.some.inj (hc.symm.trans h.1.1)), ?_⟩
    exact nextPiece_of_none hfresh hstart hc (contraction_none hquote)

/-! ### All turns -/

theorem pretokenizeFrom_of_error {text : String} {i : Nat} {stop : Stop Error} (hlt : i < text.asBytes.length)
    (h : nextPiece text i = .error stop) (out : List String) : pretokenizeFrom text i out = .error stop := by
  rw [pretokenizeFrom, if_pos hlt]
  split
  next heq =>
    rw [h] at heq
    cases heq
    rfl
  next heq =>
    rw [h] at heq
    cases heq

theorem pretokenizeFrom_of_ok {text : String} {i j : Nat} {piece : Option String} (hlt : i < text.asBytes.length)
    (h : nextPiece text i = .ok (piece, j)) (out : List String) :
    pretokenizeFrom text i out = pretokenizeFrom text j (out ++ piece.toList) := by
  rw [pretokenizeFrom, if_pos hlt]
  split
  next heq =>
    rw [h] at heq
    cases heq
  next heq =>
    rw [h] at heq
    cases heq
    rfl

/-- An apostrophe that starts a piece and whose look-ahead ends inside of a character. -/
def BadApostrophe (b : List UInt8) (i : Nat) : Prop :=
  ApostropheStart b i ∧ splitsChar b i = true

theorem Cut.ne_empty {text piece : String} {start stop : Nat} (h : Cut text start piece stop) : piece ≠ "" := by
  rintro rfl
  have hlength := congrArg List.length h.bytes
  have hle := le_length_of_isCharBoundary h.boundary
  have hlt := h.lt
  rw [List.length_take, List.length_drop] at hlength
  have hnil : "".asBytes.length = 0 := rfl
  omega

/-- From a fresh place on, the loop cuts up the rest of the text, unless a bad apostrophe is left. -/
theorem pretokenizeFrom_spec {text : String} {i : Nat} (hfresh : Fresh text.asBytes i)
    (hboundary : isCharBoundary text.asBytes i = true) (out : List String) :
    (∃ pieces, pretokenizeFrom text i out = .ok (out ++ pieces) ∧ (∀ piece ∈ pieces, piece ≠ "") ∧
        pieces.flatMap String.asBytes = text.asBytes.drop i ∧ ∀ k, i ≤ k → ¬BadApostrophe text.asBytes k) ∨
      (pretokenizeFrom text i out = panic .outOfRange ∧ ∃ k, BadApostrophe text.asBytes k) := by
  induction hleft : text.asBytes.length - i using Nat.strongRecOn generalizing i out with
  | ind left ih =>
    by_cases hlt : i < text.asBytes.length
    · rcases nextPiece_spec hlt hfresh hboundary with ⟨hquote, hsplit, hpanic⟩ | ⟨hgood, piece, stop, hnext, hcut⟩
      · exact .inr ⟨pretokenizeFrom_of_error hlt hpanic out, i, hquote, hsplit⟩
      · have hmore := hcut.lt
        rw [pretokenizeFrom_of_ok hlt hnext]
        rcases ih (text.asBytes.length - stop) (by omega) hcut.fresh hcut.boundary (out ++ [piece]) rfl with
          ⟨pieces, hrun, hne, hbytes, hrest⟩ | hbad
        · refine .inl ⟨piece :: pieces, ?_, List.forall_mem_cons.mpr ⟨hcut.ne_empty, hne⟩, ?_, fun k hk hbad => ?_⟩
          · rw [Option.toList_some, hrun, List.append_assoc, List.singleton_append]
          · rw [List.flatMap_cons, hcut.bytes, hbytes]
            have hjoin := List.take_append_drop (stop - i) (text.asBytes.drop i)
            rwa [List.drop_drop, Nat.add_sub_cancel' (Nat.le_of_lt hmore)] at hjoin
          · -- neither here, nor inside of the piece, nor later
            rcases Nat.lt_or_ge k stop with hin | hout
            · rcases Nat.eq_or_lt_of_le hk with rfl | hin'
              · exact hgood hbad
              · exact hcut.quiet k hin' hin hbad.1
            · exact hrest k hout hbad
        · exact .inr hbad
    · refine .inl ⟨[], ?_, List.forall_mem_nil _, ?_, fun k hk hbad => ?_⟩
      · rw [pretokenizeFrom, if_neg hlt, List.append_nil]
      · rw [List.drop_eq_nil_of_le (Nat.not_lt.mp hlt), List.flatMap_nil]
      · have hin := (List.getElem?_eq_some_iff.mp hbad.1.1).1
        omega

/-- What is returned has the bytes of the text. -/
theorem flatMap_pretokenize {text : String} {pieces : List String} (h : pretokenize text = .ok pieces) :
    pieces.flatMap String.asBytes = text.asBytes := by
  unfold pretokenize at h
  rcases pretokenizeFrom_spec (fresh_zero _) (isCharBoundary_zero text.asBytes) [] with ⟨all, hrun, -, hbytes, -⟩ | ⟨hpanic, -⟩
  · rw [hrun] at h
    cases h
    exact hbytes
  · rw [hpanic] at h
    cases h

/-- The places where turns start. -/
inductive Turn (text : String) : Nat → Prop where
  | first : Turn text 0
  | next {i j : Nat} {piece : Option String} : Turn text i → i < text.asBytes.length →
      nextPiece text i = .ok (piece, j) → Turn text j

theorem Turn.fresh {text : String} {i : Nat} (h : Turn text i) :
    Fresh text.asBytes i ∧ isCharBoundary text.asBytes i = true := by
  induction h with
  | first => exact ⟨fresh_zero _, isCharBoundary_zero _⟩
  | next hturn hlt hnext ih =>
    rcases nextPiece_spec hlt ih.1 ih.2 with ⟨-, -, hpanic⟩ | ⟨-, piece, stop, hok, hcut⟩
    · rw [hpanic] at hnext
      cases hnext
    · rw [hok] at hnext
      cases hnext
      exact ⟨hcut.fresh, hcut.boundary⟩

end Pretokenize

open Pretokenize

/-- The text is cut without loss: the pretokenizer returns, every piece has bytes, the pieces in
order are the text, and every turn cuts a piece off, at boundaries and without the branch that
skips a byte. -/
structure CutsLosslessly (text : String) : Prop where
  pieces : ∃ pieces, pretokenize text = .ok pieces ∧ (∀ piece ∈ pieces, piece ≠ "") ∧ String.join pieces = text
  turns : ∀ i, Turn text i → i < text.asBytes.length → ∃ piece j, nextPiece text i = .ok (some piece, j)

/-- **When the pretokenizer is total and lossless.** Exactly on the texts without a bad
apostrophe. -/
theorem cutsLosslessly_iff (text : String) :
    CutsLosslessly text ↔ ∀ i, ¬BadApostrophe text.asBytes i := by
  constructor
  -- A bad apostrophe makes the loop panic.
  · rintro ⟨⟨pieces, hrun, -⟩, -⟩ i hbad
    rcases pretokenizeFrom_spec (fresh_zero _) (isCharBoundary_zero text.asBytes) [] with ⟨-, -, -, -, hnone⟩ | ⟨hpanic, -⟩
    · exact hnone i (Nat.zero_le i) hbad
    · unfold pretokenize at hrun
      rw [hpanic] at hrun
      cases hrun
  -- Without one, every turn from a fresh place cuts off a piece.
  · intro hnone
    refine ⟨?_, fun i hturn hlt => ?_⟩
    · rcases pretokenizeFrom_spec (fresh_zero _) (isCharBoundary_zero text.asBytes) [] with
        ⟨pieces, hrun, hne, hbytes, -⟩ | ⟨-, k, hbad⟩
      · refine ⟨pieces, hrun, hne, String.asBytes_injective ?_⟩
        rw [asBytes_join, hbytes, List.drop_zero]
      · exact absurd hbad (hnone k)
    · obtain ⟨hfresh, hboundary⟩ := hturn.fresh
      rcases nextPiece_spec hlt hfresh hboundary with ⟨hquote, hsplit, -⟩ | ⟨-, piece, stop, hok, -⟩
      · exact absurd ⟨hquote, hsplit⟩ (hnone i)
      · exact ⟨piece, stop, hok⟩

/-- An apostrophe before a non-ASCII letter. -/
theorem apostrophe_splits_character : ¬CutsLosslessly "'é" := by
  rintro ⟨⟨pieces, hrun, -⟩, -⟩
  have hpanic : nextPiece "'é" 0 = panic .outOfRange := by decide
  unfold pretokenize at hrun
  rw [pretokenizeFrom_of_error (by decide) hpanic] at hrun
  cases hrun

end VitniTensor
