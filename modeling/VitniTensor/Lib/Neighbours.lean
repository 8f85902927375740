import Mathlib.Data.List.Basic

/-!
# Merging neighbours

A scan over the places of a list keeps the first of the best candidates that it meets. A loop
replaces two neighbours by one element as long as the scan finds a place. What the scan finds is
stated here for any order of candidates, and what a step keeps is carried over a run of the loop.
-/

namespace VitniTensor.Neighbours

/-! ### Replacing two neighbours -/

section Lists

variable {α : Type}

/-- Two neighbours of a list. -/
theorem exists_neighbours {l : List α} {i : Nat} (h : i + 1 < l.length) :
    ∃ pre a b post, l = pre ++ a :: b :: post ∧ pre.length = i := by
  refine ⟨l.take i, l[i], l[i + 1], l.drop (i + 2), ?_, ?_⟩
  · rw [← List.drop_eq_getElem_cons h, ← List.drop_eq_getElem_cons (by omega), List.take_append_drop]
  · rw [List.length_take]
    omega

/-- `xs[i] = c; xs.remove(i + 1)`. -/
def replaceAt (xs : List α) (i : Nat) (c : α) : List α :=
  (xs.set i c).eraseIdx (i + 1)

@[simp] theorem replaceAt_append (pre : List α) (a b c : α) (post : List α) :
    replaceAt (pre ++ a :: b :: post) pre.length c = pre ++ c :: post := by
  simp [replaceAt, List.eraseIdx_append_of_length_le]

theorem replaceAt_cons_succ (x : α) (xs : List α) (i : Nat) (c : α) :
    replaceAt (x :: xs) (i + 1) c = x :: replaceAt xs i c := by
  simp [replaceAt]

theorem length_replaceAt {xs : List α} {i : Nat} {c : α} (h : i + 1 < xs.length) :
    (replaceAt xs i c).length + 1 = xs.length := by
  obtain ⟨pre, a, b, post, rfl, rfl⟩ := exists_neighbours h
  simp
  omega

theorem getElem?_eq_getD {xs : List α} {i : Nat} (h : i < xs.length) (default : α) :
    xs[i]? = some (xs.getD i default) := by
  rw [List.getD_eq_getElem?_getD, List.getElem?_eq_getElem h, Option.getD_some]

/-- A merge keeps what the elements spell, if the new one spells what the two did. -/
theorem flatMap_replaceAt {β : Type} (spell : α → List β) {xs : List α} {i : Nat} {a b c : α} (h : i + 1 < xs.length)
    (ha : xs[i]? = some a) (hb : xs[i + 1]? = some b) (hc : spell c = spell a ++ spell b) :
    (replaceAt xs i c).flatMap spell = xs.flatMap spell := by
  obtain ⟨pre, a', b', post, rfl, rfl⟩ := exists_neighbours h
  obtain rfl : a' = a := by simpa using ha
  obtain rfl : b' = b := by simpa using hb
  simp [hc]

end Lists

/-! ### The scan -/

section Scan

variable {κ τ : Type}

/-- What the scan needs of the comparison: a strict order in which two candidates that differ are
told apart by every candidate above the limit. -/
structure Contest (beats : κ → κ → Prop) (limit : κ) : Prop where
  irrefl : ∀ a, ¬beats a a
  trans : ∀ a b c, beats a b → beats b c → beats a c
  apart : ∀ a b c, beats a c → beats b limit → beats a b ∨ beats b c

variable (beats : κ → κ → Prop) [DecidableRel beats] (cand : Nat → Option (κ × τ))

/-- One turn: a candidate that beats the best so far takes its place. -/
def see (best : κ × Option τ) (i : Nat) : κ × Option τ :=
  match cand i with
  | some (k, t) => if beats k best.1 then (k, some t) else best
  | none => best

/-- The places `lo..hi`, from left to right. -/
def scan (limit : κ) (lo hi : Nat) : κ × Option τ :=
  (List.range' lo (hi - lo)).foldl (see beats cand) (limit, none)

/-- Place `i` has a candidate above the limit that no other beats, and that beats all before it. -/
structure FirstBest (limit : κ) (lo hi i : Nat) (k : κ) (t : τ) : Prop where
  low : lo ≤ i
  high : i < hi
  here : cand i = some (k, t)
  above : beats k limit
  best : ∀ (j : Nat) (k' : κ) (t' : τ), lo ≤ j → j < hi → cand j = some (k', t') → ¬beats k' k
  first : ∀ (j : Nat) (k' : κ) (t' : τ), lo ≤ j → j < i → cand j = some (k', t') → beats k' limit → beats k k'

/-- No candidate is above the limit. -/
def NoneAbove (limit : κ) (lo hi : Nat) : Prop :=
  ∀ (j : Nat) (k : κ) (t : τ), lo ≤ j → j < hi → cand j = some (k, t) → ¬beats k limit

variable {beats cand} {limit : κ} {lo hi i : Nat} {k : κ} {t : τ}

omit [DecidableRel beats] in
/-- There is one first place. -/
theorem FirstBest.unique (h : FirstBest beats cand limit lo hi i k t) {i' : Nat} {k' : κ} {t' : τ}
    (h' : FirstBest beats cand limit lo hi i' k' t') : i = i' ∧ k = k' ∧ t = t' := by
  have hplace : i = i' := by
    rcases Nat.lt_trichotomy i i' with hlt | heq | hgt
    · exact absurd (h'.first i k t h.low hlt h.here h.above) (h.best i' k' t' h'.low h'.high h'.here)
    · exact heq
    · exact absurd (h.first i' k' t' h'.low hgt h'.here h'.above) (h'.best i k t h.low h.high h.here)
  subst hplace
  cases h.here.symm.trans h'.here
  exact ⟨rfl, rfl, rfl⟩

omit [DecidableRel beats] in
theorem FirstBest.not_noneAbove (h : FirstBest beats cand limit lo hi i k t) : ¬NoneAbove beats cand limit lo hi :=
  fun hnone => hnone i k t h.low h.high h.here h.above

/-- What the scan has found after the places `lo..hi`. -/
inductive Scanned (beats : κ → κ → Prop) (cand : Nat → Option (κ × τ)) (limit : κ) (lo hi : Nat) :
    κ × Option τ → Prop
  | nothing : NoneAbove beats cand limit lo hi → Scanned beats cand limit lo hi (limit, none)
  | found {i : Nat} {k : κ} {t : τ} : FirstBest beats cand limit lo hi i k t →
      Scanned beats cand limit lo hi (k, some t)

/-- One more place. -/
theorem Scanned.see (contest : Contest beats limit) (hlo : lo ≤ hi) {best : κ × Option τ}
    (h : Scanned beats cand limit lo hi best) : Scanned beats cand limit lo (hi + 1) (see beats cand best hi) := by
  -- a place below `hi + 1` is one of the old ones or `hi` itself
  have hsplit : ∀ {j : Nat}, j < hi + 1 → j < hi ∨ j = hi := fun hj => by omega
  unfold Neighbours.see
  cases hcand : cand hi with
  | none =>
    have hold : ∀ {j : Nat} {k : κ} {t : τ}, j < hi + 1 → cand j = some (k, t) → j < hi := by
      intro j k t hj hat
      rcases hsplit hj with hlt | rfl
      · exact hlt
      · cases hcand.symm.trans hat
    cases h with
    | nothing hnone => exact .nothing fun j k t hlow hj hat => hnone j k t hlow (hold hj hat) hat
    | found hfirst =>
      exact .found { hfirst with
        high := by have := hfirst.high; omega
        best := fun j k' t' hlow hj hat => hfirst.best j k' t' hlow (hold hj hat) hat }
  | some found =>
    obtain ⟨k, t⟩ := found
    have hlast : ∀ {k' : κ} {t' : τ}, cand hi = some (k', t') → k' = k := fun hat => by
      cases hcand.symm.trans hat
      rfl
    dsimp only
    cases h with
    | nothing hnone =>
      split
      next hbeats =>
        refine .found (i := hi) ⟨hlo, Nat.lt_succ_self hi, hcand, hbeats, ?_, ?_⟩
        · intro j k' t' hlow hj hat hbetter
          rcases hsplit hj with hlt | rfl
          · exact hnone j k' t' hlow hlt hat (contest.trans k' k limit hbetter hbeats)
          · cases hlast hat
            exact contest.irrefl k hbetter
        · intro j k' t' hlow hj hat habove
          exact absurd habove (hnone j k' t' hlow hj hat)
      next hbeats =>
        refine .nothing fun j k' t' hlow hj hat => ?_
        rcases hsplit hj with hlt | rfl
        · exact hnone j k' t' hlow hlt hat
        · cases hlast hat
          exact hbeats
    | @found i best s hfirst =>
      split
      next hbeats =>
        refine .found (i := hi) ⟨hlo, Nat.lt_succ_self hi, hcand, contest.trans k best limit hbeats hfirst.above, ?_, ?_⟩
        · intro j k' t' hlow hj hat hbetter
          rcases hsplit hj with hlt | rfl
          · exact hfirst.best j k' t' hlow hlt hat (contest.trans k' k best hbetter hbeats)
          · cases hlast hat
            exact contest.irrefl k hbetter
        · -- an earlier candidate does not beat the old best, so the new best beats it
          intro j k' t' hlow hj hat habove
          rcases contest.apart k k' best hbeats habove with hwin | hlose
          · exact hwin
          · exact absurd hlose (hfirst.best j k' t' hlow hj hat)
      next hbeats =>
        refine .found { hfirst with high := by have := hfirst.high; omega, best := ?_ }
        intro j k' t' hlow hj hat
        rcases hsplit hj with hlt | rfl
        · exact hfirst.best j k' t' hlow hlt hat
        · cases hlast hat
          exact hbeats

theorem scanned_scan (contest : Contest beats limit) (cand : Nat → Option (κ × τ)) (lo hi : Nat) :
    Scanned beats cand limit lo hi (scan beats cand limit lo hi) := by
  rcases Nat.le_total hi lo with hle | hle
  · have hempty : hi - lo = 0 := by omega
    unfold scan
    rw [hempty]
    exact .nothing fun j k t hlow hj => by omega
  · obtain ⟨n, rfl⟩ := Nat.exists_eq_add_of_le hle
    clear hle
    unfold scan
    rw [Nat.add_sub_cancel_left]
    induction n with
    | zero => exact .nothing fun j k t hlow hj => by omega
    | succ n ih =>
      rw [List.range'_concat, List.foldl_append, List.foldl_cons, List.foldl_nil, Nat.one_mul]
      exact ih.see contest (Nat.le_add_right lo n)

/-- The scan finds a place exactly when there is a first best one. -/
theorem scan_eq_some (contest : Contest beats limit) :
    scan beats cand limit lo hi = (k, some t) ↔ ∃ i, FirstBest beats cand limit lo hi i k t := by
  have hscanned := scanned_scan contest cand lo hi
  generalize scan beats cand limit lo hi = result at hscanned
  cases hscanned with
  | nothing hnone =>
    constructor
    · rintro ⟨⟩
    · rintro ⟨i, hfirst⟩
      exact absurd hnone hfirst.not_noneAbove
  | @found i' k' t' hfirst' =>
    constructor
    · rintro ⟨⟩
      exact ⟨i', hfirst'⟩
    · rintro ⟨i, hfirst⟩
      obtain ⟨-, rfl, rfl⟩ := hfirst.unique hfirst'
      rfl

theorem scan_eq_none (contest : Contest beats limit) :
    (scan beats cand limit lo hi).2 = none ↔ NoneAbove beats cand limit lo hi := by
  have hscanned := scanned_scan contest cand lo hi
  generalize scan beats cand limit lo hi = result at hscanned
  cases hscanned with
  | nothing hnone => exact ⟨fun _ => hnone, fun _ => rfl⟩
  | found hfirst =>
    constructor
    · rintro ⟨⟩
    · exact fun hnone => absurd hnone hfirst.not_noneAbove

theorem scan_of_noneAbove (contest : Contest beats limit) (h : NoneAbove beats cand limit lo hi) :
    scan beats cand limit lo hi = (limit, none) := by
  have hscanned := scanned_scan contest cand lo hi
  generalize scan beats cand limit lo hi = result at hscanned
  cases hscanned with
  | nothing => rfl
  | found hfirst => exact absurd h hfirst.not_noneAbove

end Scan

/-! ### Runs -/

section Runs

variable {σ : Type}

/-- `n` steps. -/
inductive Run (step : σ → σ → Prop) : Nat → σ → σ → Prop
  | done (s : σ) : Run step 0 s s
  | more {n : Nat} {s s' t : σ} : step s s' → Run step n s' t → Run step (n + 1) s t

variable {step step' : σ → σ → Prop} {n : Nat} {s t : σ}

theorem Run.keeps (inv : σ → Prop) (hstep : ∀ s s', inv s → step s s' → inv s') (h : Run step n s t) (hs : inv s) :
    inv t := by
  induction h with
  | done s => exact hs
  | more hfirst _ ih => exact ih (hstep _ _ hs hfirst)

/-- Every step takes one off the measure. -/
theorem Run.measure {size : σ → Nat} (hstep : ∀ s s', step s s' → size s' + 1 = size s) (h : Run step n s t) :
    size t + n = size s := by
  induction h with
  | done s => rfl
  | @more n s s' t hfirst _ ih =>
    have hone := hstep s s' hfirst
    omega

end Runs

end VitniTensor.Neighbours
