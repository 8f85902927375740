import VitniTensor.Lib.Outcome

/-!
# Filling a buffer

Writing `v i` into cell `i` for every index of a list. The result depends only on which
indices occur in the list, not on their order or on how often they occur.
-/

namespace VitniTensor.Fill

open Outcome

variable {ε σ : Type}

/-- Write `v i` for each `i` of the list, in turn. -/
def fill (v : Nat → σ) (is : List Nat) (y : List σ) : List σ :=
  is.foldl (fun y i => y.set i (v i)) y

@[simp] theorem fill_nil (v : Nat → σ) (y : List σ) : fill v [] y = y := rfl

@[simp] theorem fill_cons (v : Nat → σ) (i : Nat) (is : List Nat) (y : List σ) :
    fill v (i :: is) y = fill v is (y.set i (v i)) := rfl

theorem fill_append (v : Nat → σ) (is js : List Nat) (y : List σ) :
    fill v (is ++ js) y = fill v js (fill v is y) :=
  List.foldl_append

@[simp] theorem length_fill (v : Nat → σ) (is : List Nat) (y : List σ) :
    (fill v is y).length = y.length := by
  induction is generalizing y with
  | nil => rfl
  | cons i is ih => rw [fill_cons, ih, List.length_set]

theorem getElem?_fill (v : Nat → σ) (is : List Nat) (y : List σ) (j : Nat) :
    (fill v is y)[j]? = if j ∈ is ∧ j < y.length then some (v j) else y[j]? := by
  induction is generalizing y with
  | nil => simp
  | cons i is ih =>
    rw [fill_cons, ih, List.length_set, List.getElem?_set]
    by_cases hji : j = i
    · subst hji
      by_cases hlt : j < y.length
      · simp [hlt]
      · simp [hlt]
    · have hij : ¬i = j := fun h => hji h.symm
      simp [hji, hij]

/-- Every cell written. -/
theorem fill_all {v : Nat → σ} {is : List Nat} {y : List σ} (h : ∀ i < y.length, i ∈ is) :
    fill v is y = (List.range y.length).map v := by
  refine List.ext_getElem? fun j => ?_
  rw [getElem?_fill, List.getElem?_map]
  by_cases hj : j < y.length
  · simp [hj, h j hj]
  · simp [hj]

/-- Filling a range of cells replaces that part of the buffer. -/
theorem fill_range' {v : Nat → σ} {base n : Nat} {y : List σ} (h : base + n ≤ y.length) :
    fill v (List.range' base n) y = y.take base ++ (List.range' base n).map v ++ y.drop (base + n) := by
  have htake : (y.take base).length = base := by
    rw [List.length_take]
    omega
  refine List.ext_getElem? fun j => ?_
  rw [getElem?_fill, List.append_assoc, List.getElem?_append, htake]
  by_cases hlow : j < base
  · have hout : ¬(j ∈ List.range' base n ∧ j < y.length) := by
      simp only [List.mem_range'_1]
      omega
    rw [if_neg hout, if_pos hlow, List.getElem?_take_of_lt hlow]
  · rw [if_neg hlow, List.getElem?_append, List.length_map, List.length_range']
    by_cases hin : j - base < n
    · have hmem : j ∈ List.range' base n ∧ j < y.length := by
        simp only [List.mem_range'_1]
        omega
      have hj : base + (j - base) = j := by omega
      rw [if_pos hmem, if_pos hin, List.getElem?_map, List.getElem?_range' hin]
      simp only [Option.map_some, Nat.one_mul, hj]
    · have hout : ¬(j ∈ List.range' base n ∧ j < y.length) := by
        simp only [List.mem_range'_1]
        omega
      have hj : base + n + (j - base - n) = j := by omega
      rw [if_neg hout, if_neg hin, List.getElem?_drop, hj]

/-! ### Loops that fill -/

/-- `y[base + i] = f(i)`. -/
def storeAt (f : Nat → Outcome ε σ) (base i : Nat) (y : List σ) : Outcome ε (List σ) := do
  let x ← f i
  store y (base + i) x

/-- Storing keeps the length of the buffer. -/
theorem length_storeAt {f : Nat → Outcome ε σ} {base i : Nat} {y y' : List σ}
    (h : storeAt f base i y = .ok y') : y'.length = y.length := by
  obtain ⟨x, -, h⟩ := bind_eq_ok.mp h
  obtain ⟨-, rfl⟩ := store_eq_ok.mp h
  exact List.length_set

theorem length_forFrom_storeAt {f : Nat → Outcome ε σ} {base lo n : Nat} {y y' : List σ}
    (h : forFrom lo n (storeAt f base) y = .ok y') : y'.length = y.length :=
  forFrom_keeps (fun z => z.length = y.length) (fun _ _ _ same step => (length_storeAt step).trans same)
    rfl h

/-- A loop over computed values that stay in range. -/
theorem forFrom_storeAt {f : Nat → Outcome ε σ} {v : Nat → σ} {base lo n : Nat} {y : List σ}
    (hf : ∀ i, lo ≤ i → i < lo + n → f i = .ok (v i)) (hy : base + (lo + n) ≤ y.length) :
    forFrom lo n (storeAt f base) y =
      .ok (fill (fun j => v (j - base)) (List.range' (base + lo) n) y) := by
  induction n generalizing lo y with
  | zero => rfl
  | succ n ih =>
    have first : storeAt f base lo y = .ok (y.set (base + lo) (v lo)) := by
      unfold storeAt
      rw [hf lo (Nat.le_refl lo) (by omega), ok_bind, store_of_lt (by omega)]
    rw [forFrom, first, ok_bind, ih (fun i low high => hf i (by omega) (by omega))
      (by rw [List.length_set]; omega), List.range'_succ, fill_cons, Nat.add_sub_cancel_left]
    rfl

/-- A loop over computed values, each for a cell of its own. -/
theorem forFrom_store_fill {f : Nat → Outcome ε σ} {cell : Nat → Nat} {v : Nat → σ} {lo n : Nat}
    {y : List σ} (hf : ∀ i, lo ≤ i → i < lo + n → f i = .ok (v (cell i)) ∧ cell i < y.length) :
    forFrom lo n (fun i y => do
      let x ← f i
      store y (cell i) x) y = .ok (fill v ((List.range' lo n).map cell) y) := by
  induction n generalizing lo y with
  | zero => rfl
  | succ n ih =>
    obtain ⟨hfirst, hin⟩ := hf lo (Nat.le_refl lo) (by omega)
    rw [forFrom, hfirst, ok_bind, store_of_lt hin, ok_bind,
      ih fun i low high => by rw [List.length_set]; exact hf i (by omega) (by omega),
      List.range'_succ, List.map_cons, fill_cons]

/-- A loop of loops that fill. -/
theorem forFrom_fill {body : Nat → List σ → Outcome ε (List σ)} {v : Nat → σ} {is : Nat → List Nat}
    {lo n : Nat} {y : List σ}
    (hbody : ∀ i, lo ≤ i → i < lo + n → ∀ z : List σ, z.length = y.length →
      body i z = .ok (fill v (is i) z)) :
    forFrom lo n body y = .ok (fill v ((List.range' lo n).flatMap is) y) := by
  induction n generalizing lo y with
  | zero => rfl
  | succ n ih =>
    rw [forFrom, hbody lo (Nat.le_refl lo) (by omega) y rfl, ok_bind,
      ih fun i low high z hz => hbody i (by omega) (by omega) z (by rw [hz, length_fill]),
      List.range'_succ, List.flatMap_cons, fill_append]

/-- The same over the elements of a list, each step filling cells of its own. -/
theorem foldlM_fill {ι : Type} (v : Nat → σ) (cells : ι → List Nat) {body : List σ → ι → Outcome ε (List σ)}
    {is : List ι} {y : List σ}
    (hbody : ∀ i ∈ is, ∀ z : List σ, z.length = y.length → body z i = .ok (fill v (cells i) z)) :
    is.foldlM body y = .ok (fill v (is.flatMap cells) y) := by
  induction is generalizing y with
  | nil => rfl
  | cons i is ih =>
    have hrest := @ih (fill v (cells i) y) fun j hj z hz =>
      hbody j (List.mem_cons_of_mem i hj) z (by rw [hz, length_fill])
    rw [List.foldlM_cons, hbody i List.mem_cons_self y rfl, ok_bind, hrest, List.flatMap_cons, fill_append]

theorem store_fill {v : Nat → σ} {c : Nat} {x : σ} {y : List σ} (hc : c < y.length) (hx : x = v c) :
    (store y c x : Outcome ε (List σ)) = .ok (fill v [c] y) := by
  rw [store_of_lt hc, hx]
  rfl

/-- The same loop runs past the end of a buffer that is too short. -/
theorem forFrom_storeAt_panic {f : Nat → Outcome ε σ} {v : Nat → σ} {base n : Nat} {y : List σ}
    (hf : ∀ i < n, f i = .ok (v i)) (hn : 0 < n) (hy : y.length < base + n) :
    forRange n (storeAt f base) y = panic .outOfRange := by
  -- the first `k` writes are in range, the next one is not
  obtain ⟨k, hk⟩ : ∃ k, k = y.length - base := ⟨_, rfl⟩
  have hsplit : n = k + (1 + (n - k - 1)) := by omega
  have hfirst : ∃ y', forFrom 0 k (storeAt f base) y = .ok y' ∧ y'.length = y.length := by
    by_cases hbase : base ≤ y.length
    · exact ⟨_, forFrom_storeAt (fun i _ high => hf i (by omega)) (by omega), length_fill ..⟩
    · have : k = 0 := by omega
      subst this
      exact ⟨y, rfl, rfl⟩
  obtain ⟨y', hrun, hlength⟩ := hfirst
  have hstep : storeAt f base k y' = panic .outOfRange := by
    unfold storeAt store
    rw [hf k (by omega), ok_bind, if_neg (by omega)]
  rw [hsplit, forRange, forFrom_add, hrun, ok_bind, Nat.add_comm 1, forFrom, Nat.zero_add, hstep]
  rfl

/-! ### Loops over the cells of a part -/

/-- `for v in xs[lo..lo + n].iter_mut() { *v = f(*v) }` -/
def overwrite (f : σ → σ) (lo n : Nat) (xs : List σ) : Outcome ε (List σ) :=
  forFrom lo n (fun i xs => do
    let v ← index xs i
    store xs i (f v)) xs

/-- `for (i, &v) in src.iter().enumerate() { xs[base + i] = f(v) }` -/
def mapInto {α : Type} (f : α → σ) (src : List α) (base : Nat) (xs : List σ) : Outcome ε (List σ) :=
  forRange src.length (fun i xs => do
    let v ← index src i
    store xs (base + i) (f v)) xs

theorem length_overwrite {f : σ → σ} {lo n : Nat} {xs ys : List σ} (h : overwrite f lo n xs = (.ok ys : Outcome ε _)) :
    ys.length = xs.length := by
  apply forFrom_keeps (fun zs => zs.length = xs.length) _ rfl h
  intro i zs zs' same step
  obtain ⟨v, -, step⟩ := bind_eq_ok.mp step
  obtain ⟨-, rfl⟩ := store_eq_ok.mp step
  exact List.length_set.trans same

theorem length_mapInto {α : Type} {f : α → σ} {src : List α} {base : Nat} {xs ys : List σ}
    (h : mapInto f src base xs = (.ok ys : Outcome ε _)) : ys.length = xs.length := by
  apply forFrom_keeps (fun zs => zs.length = xs.length) _ rfl h
  intro i zs zs' same step
  obtain ⟨v, -, step⟩ := bind_eq_ok.mp step
  obtain ⟨-, rfl⟩ := store_eq_ok.mp step
  exact List.length_set.trans same

theorem index_middle {front back : List σ} {v : σ} :
    (index (front ++ v :: back) front.length : Outcome ε σ) = .ok v := by
  apply index_eq_ok.mpr
  rw [List.getElem?_append_right (Nat.le_refl _), Nat.sub_self]
  rfl

theorem store_middle {front back : List σ} {v w : σ} :
    (store (front ++ v :: back) front.length w : Outcome ε (List σ)) = .ok (front ++ w :: back) := by
  rw [store_of_lt (by rw [List.length_append, List.length_cons]; omega), List.set_append_right _ _ (Nat.le_refl _),
    Nat.sub_self]
  rfl

/-- A cell is read before it is overwritten, so the part becomes its image. -/
theorem overwrite_append (f : σ → σ) (front mid back : List σ) :
    (overwrite f front.length mid.length (front ++ mid ++ back) : Outcome ε (List σ)) =
      .ok (front ++ mid.map f ++ back) := by
  induction mid generalizing front with
  | nil => rfl
  | cons v mid ih =>
    have hrest := ih (front ++ [f v])
    rw [List.length_append, List.length_singleton] at hrest
    have hfirst : front ++ v :: mid ++ back = front ++ v :: (mid ++ back) := List.append_assoc ..
    have hsplit : front ++ f v :: (mid ++ back) = front ++ [f v] ++ mid ++ back := by
      simp only [List.append_assoc, List.cons_append, List.nil_append]
    unfold overwrite at hrest ⊢
    rw [List.length_cons, forFrom, hfirst, index_middle, ok_bind, store_middle, ok_bind, hsplit, hrest]
    simp only [List.append_assoc, List.cons_append, List.nil_append, List.map_cons]

/-- A whole buffer. -/
theorem overwrite_all (f : σ → σ) (xs : List σ) :
    (overwrite f 0 xs.length xs : Outcome ε (List σ)) = .ok (xs.map f) := by
  have hall := @overwrite_append ε σ f [] xs []
  simpa only [List.append_nil, List.nil_append, List.length_nil] using hall

theorem mapInto_append {α : Type} (f : α → σ) {src : List α} {front mid back : List σ}
    (hmid : mid.length = src.length) :
    (mapInto f src front.length (front ++ mid ++ back) : Outcome ε (List σ)) =
      .ok (front ++ src.map f ++ back) := by
  -- after some cells, those of `done` are written and those of `mid` are not
  have hrun : ∀ (left done : List α) (mid : List σ), src = done ++ left → mid.length = left.length →
      (forFrom done.length left.length (fun i xs => do
        let v ← index src i
        store xs (front.length + i) (f v)) (front ++ done.map f ++ mid ++ back) : Outcome ε (List σ)) =
        .ok (front ++ src.map f ++ back) := by
    intro left
    induction left with
    | nil =>
      intro done mid hsrc hmid
      rw [List.eq_nil_of_length_eq_zero hmid, List.append_nil, hsrc, List.append_nil]
      rfl
    | cons v left ih =>
      intro done mid hsrc hmid
      obtain ⟨w, mid, rfl⟩ := List.exists_cons_of_length_eq_add_one hmid
      have hread : (index src done.length : Outcome ε α) = .ok v := by
        rw [hsrc]
        exact index_middle
      have hcell : front.length + done.length = (front ++ done.map f).length := by
        rw [List.length_append, List.length_map]
      have hfirst : front ++ done.map f ++ w :: mid ++ back = front ++ done.map f ++ w :: (mid ++ back) :=
        List.append_assoc ..
      have hsplit : front ++ done.map f ++ f v :: (mid ++ back) = front ++ (done ++ [v]).map f ++ mid ++ back := by
        simp only [List.map_append, List.map_cons, List.map_nil, List.append_assoc, List.cons_append, List.nil_append]
      have hrest := ih (done ++ [v]) mid (by rw [hsrc, List.append_assoc]; rfl) (Nat.succ.inj hmid)
      rw [List.length_append, List.length_singleton] at hrest
      rw [List.length_cons, forFrom, hread, ok_bind, hcell, hfirst, store_middle, ok_bind, hsplit]
      exact hrest
  have hall := hrun src [] mid rfl hmid
  rw [List.map_nil, List.append_nil] at hall
  exact hall

/-- `for i in 0..n { xs[i] = f(i, xs[i]) }` -/
theorem forRange_updateAt {f : Nat → σ → Outcome ε σ} {g : Nat → σ → σ} {xs : List σ} {n : Nat} (hxs : xs.length = n)
    (default : σ) (hf : ∀ i < n, ∀ x, f i x = .ok (g i x)) :
    forRange n (fun i ys => do
      let x ← index ys i
      let y ← f i x
      store ys i y) xs = (.ok ((List.range n).map fun i => g i (xs.getD i default)) : Outcome ε _) := by
  obtain ⟨ys, hrun, hys⟩ := @forFrom_ok ε (List σ)
    (fun k ys => ys = fill (fun i => g i (xs.getD i default)) (List.range k) xs) 0 n (fun i ys => do
      let x ← index ys i
      let y ← f i x
      store ys i y) xs rfl (by
    rintro i ys - hi rfl
    rw [Nat.zero_add] at hi
    -- cell `i` is as it was
    have hcell : (index (fill (fun i => g i (xs.getD i default)) (List.range i) xs) i : Outcome ε σ) =
        .ok (xs.getD i default) := by
      apply index_eq_ok.mpr
      rw [getElem?_fill, if_neg (by simp), List.getD_eq_getElem?_getD, List.getElem?_eq_getElem (by omega)]
      rfl
    refine ⟨_, ?_, rfl⟩
    rw [hcell, ok_bind, hf i hi, ok_bind, store_of_lt (by rw [length_fill]; omega), List.range_succ, fill_append]
    rfl)
  rw [Nat.zero_add, fill_all (fun i hi => List.mem_range.mpr (by omega)), hxs] at hys
  rw [hys] at hrun
  exact hrun

end VitniTensor.Fill
