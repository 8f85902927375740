import VitniTensor.Error
import VitniTensor.Lib.Utf8

/-!
# The BPE pretokenizer

A scan over the bytes of the text that cuts it into contractions, runs of letters, digits and
punctuation, each with a space before it, and runs of whitespace. A byte of a non-ASCII character
counts as a letter. The pieces are slices of the text, so that a cut inside of a character panics.
-/

namespace VitniTensor

open Outcome Utf8

namespace Pretokenize

/-! ### Classes of bytes -/

def isLetter (c : UInt8) : Bool :=
  (0x41 ≤ c && c ≤ 0x5A) || (0x61 ≤ c && c ≤ 0x7A) || 0x80 ≤ c

def isDigit (c : UInt8) : Bool :=
  0x30 ≤ c && c ≤ 0x39

def isSpace (c : UInt8) : Bool :=
  c = 0x20 || c = 0x09 || c = 0x0A || c = 0x0D

/-- What is left. -/
def isPunct (c : UInt8) : Bool :=
  !isSpace c && !isLetter c && !isDigit c

/-- `u8::to_ascii_lowercase` -/
def toAsciiLowercase (c : UInt8) : UInt8 :=
  if 0x41 ≤ c && c ≤ 0x5A then c + 0x20 else c

def lowercase (s : String) : List UInt8 :=
  s.asBytes.map toAsciiLowercase

/-- `i < n && p(b[i])` -/
def holdsAt (p : UInt8 → Bool) (b : List UInt8) (i : Nat) : Bool :=
  b[i]?.any p

/-- `while i < n && p(b[i]) { i += 1; }` -/
def skipWhile (p : UInt8 → Bool) (b : List UInt8) (i : Nat) : Nat :=
  i + ((b.drop i).takeWhile p).length

/-! ### One turn -/

/-- Where the contraction at `start` ends, if there is one. -/
def contraction (text : String) (start : Nat) (c : UInt8) : Res (Option Nat) :=
  let n := text.asBytes.length
  if c = 0x27 ∧ start + 1 < n then do
    let two ← slice text start (min (start + 2) n)
    if lowercase two ∈ ["'s".asBytes, "'t".asBytes, "'m".asBytes, "'d".asBytes] then pure (some (start + 2))
    else if start + 3 ≤ n then do
      let three ← slice text start (start + 3)
      if lowercase three ∈ ["'re".asBytes, "'ve".asBytes, "'ll".asBytes] then pure (some (start + 3))
      else pure none
    else pure none
  else pure none

/-- Whether a run of `p`, or a space before one, starts at `start`. -/
def startsRun (p : UInt8 → Bool) (b : List UInt8) (start : Nat) (c : UInt8) : Bool :=
  (c = 0x20 && holdsAt p b (start + 1)) || p c

/-- An optional space and a run of `p`. -/
def takeRun (p : UInt8 → Bool) (text : String) (start : Nat) (c : UInt8) : Res (Option String × Nat) := do
  let i := if c = 0x20 then start + 1 else start
  let i := skipWhile p text.asBytes i
  let piece ← slice text start i
  pure (some piece, i)

/-- One turn of the loop: the piece at `start`, if any, and where the next turn starts. -/
def nextPiece (text : String) (start : Nat) : Res (Option String × Nat) := do
  let b := text.asBytes
  let c ← index b start
  match ← contraction text start c with
  | some stop => do
    let piece ← slice text start stop
    pure (some piece, stop)
  | none =>
    if startsRun isLetter b start c then takeRun isLetter text start c
    else if startsRun isDigit b start c then takeRun isDigit text start c
    else if startsRun isPunct b start c then takeRun isPunct text start c
    else if isSpace c then do
      let i := skipWhile isSpace b start
      let piece ← slice text start i
      pure (some piece, i)
    else pure (none, start + 1)

/-! ### Every turn moves on -/

theorem le_skipWhile (p : UInt8 → Bool) (b : List UInt8) (i : Nat) : i ≤ skipWhile p b i :=
  Nat.le_add_right _ _

theorem holdsAt_iff {p : UInt8 → Bool} {b : List UInt8} {i : Nat} :
    holdsAt p b i = true ↔ ∃ x, b[i]? = some x ∧ p x = true := by
  unfold holdsAt
  cases b[i]? with
  | none => simp
  | some x => simp

/-- A run has its first byte. -/
theorem lt_skipWhile {p : UInt8 → Bool} {b : List UInt8} {i : Nat} (h : holdsAt p b i = true) :
    i < skipWhile p b i := by
  obtain ⟨x, hx, hp⟩ := holdsAt_iff.mp h
  obtain ⟨hi, rfl⟩ := List.getElem?_eq_some_iff.mp hx
  unfold skipWhile
  rw [List.drop_eq_getElem_cons hi, List.takeWhile_cons_of_pos hp, List.length_cons]
  omega

private theorem takeWhile_spec (p : UInt8 → Bool) (l : List UInt8) :
    (∀ k < (l.takeWhile p).length, holdsAt p l k = true) ∧ holdsAt p l (l.takeWhile p).length = false := by
  induction l with
  | nil => exact ⟨fun k hk => absurd hk (Nat.not_lt_zero k), rfl⟩
  | cons x l ih =>
    cases hx : p x with
    | false =>
      rw [List.takeWhile_cons_of_neg (by rw [hx]; exact Bool.false_ne_true)]
      exact ⟨fun k hk => absurd hk (Nat.not_lt_zero k), hx⟩
    | true =>
      rw [List.takeWhile_cons_of_pos hx, List.length_cons]
      refine ⟨fun k hk => ?_, ih.2⟩
      cases k with
      | zero => exact hx
      | succ k => exact ih.1 k (Nat.lt_of_succ_lt_succ hk)

/-- All bytes of a run are in the class, and the byte after it is not. -/
theorem skipWhile_spec (p : UInt8 → Bool) {b : List UInt8} {i : Nat} (hi : i ≤ b.length) :
    skipWhile p b i ≤ b.length ∧ (∀ k, i ≤ k → k < skipWhile p b i → holdsAt p b k = true) ∧
      holdsAt p b (skipWhile p b i) = false := by
  obtain ⟨hrun, hstop⟩ := takeWhile_spec p (b.drop i)
  have hlength := (List.takeWhile_prefix p (l := b.drop i)).length_le
  rw [List.length_drop] at hlength
  have hshift : ∀ k, holdsAt p (b.drop i) k = holdsAt p b (i + k) := by
    intro k
    unfold holdsAt
    rw [List.getElem?_drop]
  refine ⟨by unfold skipWhile; omega, fun k hle hlt => ?_, ?_⟩
  · unfold skipWhile at hlt
    have hk := hrun (k - i) (by omega)
    rwa [hshift, Nat.add_sub_cancel' hle] at hk
  · rwa [hshift] at hstop

/-- A run leads on. -/
private theorem lt_of_takeRun {p : UInt8 → Bool} {text : String} {start j : Nat} {c : UInt8} {piece : Option String}
    (hc : text.asBytes[start]? = some c) (hopen : startsRun p text.asBytes start c = true)
    (hrun : takeRun p text start c = .ok (piece, j)) : start < j := by
  unfold takeRun at hrun
  obtain ⟨s, -, hrun⟩ := bind_eq_ok.mp hrun
  cases hrun
  split
  next hspace => exact Nat.lt_of_lt_of_le (Nat.lt_succ_self start) (le_skipWhile p _ _)
  next hother =>
    unfold startsRun at hopen
    simp only [hother, decide_false, Bool.false_and, Bool.false_or] at hopen
    exact lt_skipWhile (holdsAt_iff.mpr ⟨c, hc, hopen⟩)

private theorem lt_of_contraction {text : String} {start j : Nat} {c : UInt8}
    (h : contraction text start c = .ok (some j)) : start < j := by
  unfold contraction at h
  dsimp only at h
  split at h
  next =>
    obtain ⟨two, -, h⟩ := bind_eq_ok.mp h
    split at h
    next =>
      cases h
      omega
    next =>
      split at h
      next =>
        obtain ⟨three, -, h⟩ := bind_eq_ok.mp h
        split at h
        next =>
          cases h
          omega
        next => cases h
      next => cases h
  next => cases h

theorem lt_of_nextPiece {text : String} {start j : Nat} {piece : Option String}
    (h : nextPiece text start = .ok (piece, j)) : start < j := by
  unfold nextPiece at h
  obtain ⟨c, hc, h⟩ := bind_eq_ok.mp h
  have hbyte := index_eq_ok.mp hc
  obtain ⟨stop, hstop, h⟩ := bind_eq_ok.mp h
  cases stop with
  | some stop =>
    obtain ⟨s, -, h⟩ := bind_eq_ok.mp h
    cases h
    exact lt_of_contraction hstop
  | none =>
    dsimp only at h
    split at h
    next hopen => exact lt_of_takeRun hbyte hopen h
    next =>
      split at h
      next hopen => exact lt_of_takeRun hbyte hopen h
      next =>
        split at h
        next hopen => exact lt_of_takeRun hbyte hopen h
        next =>
          split at h
          next hspace =>
            obtain ⟨s, -, h⟩ := bind_eq_ok.mp h
            cases h
            exact lt_skipWhile (holdsAt_iff.mpr ⟨c, hbyte, hspace⟩)
          next =>
            cases h
            exact Nat.lt_succ_self start

/-- The loop from index `i` on, with the pieces so far. -/
def pretokenizeFrom (text : String) (i : Nat) (out : List String) : Res (List String) :=
  if i < text.asBytes.length then
    match _hnext : nextPiece text i with
    | .error stop => .error stop
    | .ok (piece, j) => pretokenizeFrom text j (out ++ piece.toList)
  else .ok out
termination_by text.asBytes.length - i
decreasing_by
  have hlt := lt_of_nextPiece _hnext
  omega

end Pretokenize

def pretokenize (text : String) : Res (List String) :=
  Pretokenize.pretokenizeFrom text 0 []

end VitniTensor
