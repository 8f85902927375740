import Mathlib.Data.List.Basic
import Mathlib.Algebra.GroupWithZero.Nat
import Mathlib.Algebra.Group.Int.Defs

/-!
# Uniquely readable codes

A code maps values to words over an alphabet. It is *readable* on a set of values when
an encoding followed by an arbitrary rest determines both the value and the rest. This is
injectivity together with prefix-freeness, in the form that survives concatenation: a
stream built from readable codes, field after field, is again readable.
-/

namespace Codec

variable {α β κ : Type}

/-- On values satisfying `P`, an encoding and whatever follows it can be told apart. -/
def ReadableOn (P : α → Prop) (enc : α → List κ) : Prop :=
  ∀ a b s t, P a → P b → enc a ++ s = enc b ++ t → a = b ∧ s = t

theorem ReadableOn.mono {P Q : α → Prop} {enc : α → List κ} (h : ReadableOn Q enc)
    (sub : ∀ a, P a → Q a) : ReadableOn P enc :=
  fun a b s t ha hb eq => h a b s t (sub a ha) (sub b hb) eq

theorem ReadableOn.injective {P : α → Prop} {enc : α → List κ} (h : ReadableOn P enc)
    {a b : α} (ha : P a) (hb : P b) (eq : enc a = enc b) : a = b :=
  (h a b [] [] ha hb (by rw [eq])).1

/-- Reading through an injective view of the value. -/
theorem ReadableOn.comap {P : β → Prop} {enc : β → List κ} (h : ReadableOn P enc)
    {f : α → β} (inj : Function.Injective f) :
    ReadableOn (fun a => P (f a)) (fun a => enc (f a)) := by
  intro a b s t ha hb eq
  obtain ⟨same, rest⟩ := h _ _ s t ha hb eq
  exact ⟨inj same, rest⟩

/-- One code after the other. -/
theorem ReadableOn.pair {P : α → Prop} {Q : β → Prop} {encA : α → List κ} {encB : β → List κ}
    (hA : ReadableOn P encA) (hB : ReadableOn Q encB) :
    ReadableOn (fun p : α × β => P p.1 ∧ Q p.2) (fun p => encA p.1 ++ encB p.2) := by
  rintro ⟨a, x⟩ ⟨b, y⟩ s t ⟨ha, hx⟩ ⟨hb, hy⟩ eq
  simp only [List.append_assoc] at eq
  obtain ⟨rfl, after⟩ := hA a b _ _ ha hb eq
  obtain ⟨rfl, rest⟩ := hB x y s t hx hy after
  exact ⟨rfl, rest⟩

/-- A constant tag in front of a code. -/
theorem ReadableOn.tag {P : α → Prop} {enc : α → List κ} (h : ReadableOn P enc)
    (w : List κ) : ReadableOn P (fun a => w ++ enc a) := by
  intro a b s t ha hb eq
  simp only [List.append_assoc, List.append_cancel_left_eq] at eq
  exact h a b s t ha hb eq

/-- An injective code whose words all have one length is readable. -/
theorem readableOn_of_length {P : α → Prop} {enc : α → List κ} (n : Nat)
    (len : ∀ a, P a → (enc a).length = n)
    (inj : ∀ a b, P a → P b → enc a = enc b → a = b) : ReadableOn P enc := by
  intro a b s t ha hb eq
  obtain ⟨heads, rests⟩ := List.append_inj eq ((len a ha).trans (len b hb).symm)
  exact ⟨inj a b ha hb heads, rests⟩

/-- An injective code closed by a letter that it never uses is readable. -/
theorem readableOn_of_delimiter {P : α → Prop} {enc : α → List κ} (d : κ)
    (free : ∀ a, P a → d ∉ enc a)
    (inj : ∀ a b, P a → P b → enc a = enc b → a = b) :
    ReadableOn P (fun a => enc a ++ [d]) := by
  intro a b s t ha hb eq
  simp only [List.append_assoc, List.singleton_append] at eq
  have words : ∀ u v : List κ, d ∉ u → d ∉ v → u ++ d :: s = v ++ d :: t → u = v ∧ s = t := by
    intro u
    induction u with
    | nil =>
      intro v _ hv h
      cases v with
      | nil => simpa using h
      | cons y v =>
        simp only [List.nil_append, List.cons_append, List.cons.injEq] at h
        exact absurd (h.1 ▸ List.mem_cons_self) hv
    | cons x u ih =>
      intro v hu hv h
      cases v with
      | nil =>
        simp only [List.nil_append, List.cons_append, List.cons.injEq] at h
        exact absurd (h.1 ▸ List.mem_cons_self) hu
      | cons y v =>
        simp only [List.cons_append, List.cons.injEq] at h
        obtain ⟨rfl, after⟩ := h
        obtain ⟨rfl, rest⟩ := ih v (fun m => hu (List.mem_cons_of_mem _ m))
          (fun m => hv (List.mem_cons_of_mem _ m)) after
        exact ⟨rfl, rest⟩
  obtain ⟨heads, rests⟩ := words _ _ (free a ha) (free b hb) eq
  exact ⟨inj a b ha hb heads, rests⟩

/-- Two sequences of the same length, item after item. -/
theorem ReadableOn.flatMap {P : α → Prop} {enc : α → List κ} (h : ReadableOn P enc) :
    ∀ xs ys : List α, xs.length = ys.length → (∀ x ∈ xs, P x) → (∀ y ∈ ys, P y) →
      ∀ s t, xs.flatMap enc ++ s = ys.flatMap enc ++ t → xs = ys ∧ s = t := by
  intro xs
  induction xs with
  | nil =>
    intro ys len _ _ s t eq
    obtain rfl : ys = [] := List.eq_nil_of_length_eq_zero len.symm
    exact ⟨rfl, by simpa using eq⟩
  | cons x xs ih =>
    intro ys len hx hy s t eq
    cases ys with
    | nil => simp at len
    | cons y ys =>
      simp only [List.flatMap_cons, List.append_assoc] at eq
      obtain ⟨rfl, after⟩ := h x y _ _ (hx x List.mem_cons_self) (hy y List.mem_cons_self) eq
      obtain ⟨rfl, rest⟩ := ih ys (by simpa using len)
        (fun z m => hx z (List.mem_cons_of_mem _ m))
        (fun z m => hy z (List.mem_cons_of_mem _ m)) s t after
      exact ⟨rfl, rest⟩

/-- A sequence announced by its length. -/
def counted (count : Nat → List κ) (enc : α → List κ) (xs : List α) : List κ :=
  count xs.length ++ xs.flatMap enc

/-- A word announced by its length. -/
def blob (count : Nat → List κ) (bs : List κ) : List κ :=
  count bs.length ++ bs

theorem ReadableOn.counted {P : α → Prop} {Q : Nat → Prop} {enc : α → List κ}
    {count : Nat → List κ} (hc : ReadableOn Q count) (h : ReadableOn P enc) :
    ReadableOn (fun xs => Q xs.length ∧ ∀ x ∈ xs, P x) (counted count enc) := by
  intro xs ys s t hx hy eq
  simp only [Codec.counted, List.append_assoc] at eq
  obtain ⟨len, after⟩ := hc _ _ _ _ hx.1 hy.1 eq
  exact h.flatMap xs ys len hx.2 hy.2 s t after

theorem ReadableOn.blob {Q : Nat → Prop} {count : Nat → List κ} (hc : ReadableOn Q count) :
    ReadableOn (fun bs => Q bs.length) (blob count) := by
  intro xs ys s t hx hy eq
  simp only [Codec.blob, List.append_assoc] at eq
  obtain ⟨len, after⟩ := hc _ _ _ _ hx hy eq
  exact List.append_inj after len

end Codec
