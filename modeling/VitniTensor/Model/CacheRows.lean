import VitniTensor.Model.Quiet

/-!
# Cache rows

The rotation and the attention of a step, which work on the flat caches, are those of the
causal specification on single rows.
-/

namespace VitniTensor

open Outcome Exec Rows Fill

variable {F : Type}

/-! ### The sizes of a pass -/

/-- The sizes of a pass, as `passOf` derives them. -/
structure Pass.Derived (p : Pass F) : Prop where
  heads : 0 < p.cfg.nHeads
  kvHeads : 0 < p.cfg.nKvHeads
  headSize : p.headSize = p.cfg.dim / p.cfg.nHeads
  kvMul : p.kvMul = p.cfg.nHeads / p.cfg.nKvHeads
  kvDim : p.kvDim = p.cfg.dim * p.cfg.nKvHeads / p.cfg.nHeads

theorem passOf_derived {build : Build} {blake3 : Blake3} {cfg : Config} {w : QuantizedWeights F}
    {plan : Option (InterventionPlan F)} {pos : Nat} {regime : UInt8} {p : Pass F}
    (h : passOf build blake3 cfg w plan pos regime = .ok p) :
    p.Derived ∧ p.cfg = cfg ∧ p.weights = w ∧ p.plan = plan ∧ p.pos = pos ∧ p.regime = regime := by
  obtain ⟨kvDim, hkvDim, h⟩ := bind_eq_ok.mp h
  obtain ⟨kvMul, hkvMul, h⟩ := bind_eq_ok.mp h
  obtain ⟨headSize, hheadSize, h⟩ := bind_eq_ok.mp h
  cases h
  obtain ⟨total, htotal, hkvDim⟩ := bind_eq_ok.mp hkvDim
  obtain ⟨-, rfl⟩ := word_eq_ok.mp htotal
  obtain ⟨hheads, hsize⟩ := div_eq_ok.mp hheadSize
  obtain ⟨hkv, hmul⟩ := div_eq_ok.mp hkvMul
  exact ⟨⟨hheads, hkv, hsize.symm, hmul.symm, (div_eq_ok.mp hkvDim).2.symm⟩, rfl, rfl, rfl, rfl, rfl⟩

namespace Pass

variable {p : Pass F}

theorem Derived.qOut_le (h : p.Derived) : p.cfg.nHeads * p.headSize ≤ p.cfg.dim := by
  rw [h.headSize]
  exact Nat.mul_div_le _ _

/-- Heads that make up the width make up a cache row. -/
theorem Derived.kvDim_eq (h : p.Derived) (hdim : p.cfg.dim = p.cfg.nHeads * p.headSize) :
    p.kvDim = p.cfg.nKvHeads * p.headSize := by
  rw [h.kvDim, hdim, Nat.mul_assoc, Nat.mul_div_cancel_left _ h.heads, Nat.mul_comm]

/-- A head of some size leaves room for a cache row. -/
theorem Derived.kvDim_pos (h : p.Derived) (hsize : 0 < p.headSize) : 0 < p.kvDim := by
  rw [h.headSize] at hsize
  rw [h.kvDim]
  exact Nat.div_pos (Nat.le_trans (Nat.div_pos_iff.mp hsize).2 (Nat.le_mul_of_pos_right _ h.kvHeads)) h.heads

/-- The width of the query, where the host has it. -/
theorem Derived.attnQOutDim_eq (h : p.Derived) {outDim : Nat} (hout : attnQOutDim p.cfg = .ok outDim) :
    outDim = p.cfg.nHeads * p.headSize := by
  obtain ⟨headSize, hsize, hout⟩ := bind_eq_ok.mp hout
  rw [h.headSize, (div_eq_ok.mp hsize).2]
  exact (word_eq_ok.mp hout).2.symm

end Pass

variable [F32 F]

/-- Grouped-query heads of an even size that make up `dim` and `kv_dim`. -/
structure Pass.WellShaped (p : Pass F) : Prop where
  dim : p.cfg.dim = p.cfg.nHeads * p.headSize
  kvDim : p.kvDim = p.cfg.nKvHeads * p.headSize
  group : p.cfg.nHeads = p.kvMul * p.cfg.nKvHeads
  even : p.headSize = 2 * (p.headSize / 2)
  kvMulPos : 0 < p.kvMul
  head : p.cfg.headSize = .ok p.headSize
  fits : p.cfg.dim < wordSize

/-- Heads of an even size that make up `dim` and `kv_dim`. -/
structure Pass.EvenHeads (p : Pass F) : Prop where
  dim : p.cfg.dim = p.cfg.nHeads * p.headSize
  kvDim : p.kvDim = p.cfg.nKvHeads * p.headSize
  even : p.headSize = 2 * (p.headSize / 2)

omit [F32 F] in
theorem Pass.WellShaped.evenHeads {p : Pass F} (hp : p.WellShaped) : p.EvenHeads :=
  ⟨hp.dim, hp.kvDim, hp.even⟩

omit [F32 F] in
theorem Pass.WellShaped.kv_le {p : Pass F} (hp : p.WellShaped) : p.cfg.nKvHeads ≤ p.cfg.nHeads := by
  rw [hp.group]
  exact Nat.le_mul_of_pos_left _ hp.kvMulPos

/-! ### Rotation -/

theorem rotate_ok {rot : F × F} {i j : Nat} {xs : List F} (hi : i < xs.length) (hj : j < xs.length) :
    rotate rot i j xs = .ok ((xs.set i (F32.sub (F32.mul xs[i] rot.1) (F32.mul xs[j] rot.2))).set j
      (F32.add (F32.mul xs[i] rot.2) (F32.mul xs[j] rot.1))) := by
  unfold rotate
  rw [index_of_lt hi, ok_bind, index_of_lt hj, ok_bind, store_of_lt hi, ok_bind,
    store_of_lt (by rw [List.length_set]; exact hj)]

theorem rotate_inRow {w n r i j : Nat} (rot : F × F) (hr : r < n) (hi : i < w) (hj : j < w) :
    InRow w n r (rotate rot (r * w + i) (r * w + j)) (rotate rot i j) := by
  intro xs hxs
  have hrow := length_row hr hxs
  have hset : ∀ v, ((row w xs r).set i v).length = w := fun v => by rw [List.length_set, hrow]
  have hlength : ∀ v, (setRow w r ((row w xs r).set i v) xs).length = n * w :=
    fun v => by rw [length_setRow hr hxs (hset v), hxs]
  refine ⟨_, rotate_ok (by omega) (by omega), by rw [List.length_set, hset], ?_⟩
  unfold rotate
  rw [index_inRow hi, index_of_lt (by omega), ok_bind, index_inRow hj, index_of_lt (by omega), ok_bind,
    store_inRow hr hxs hi, ok_bind, store_inRow hr (hlength _) hj, row_setRow hr hxs (hset _),
    setRow_setRow hr hxs (hset _) (by rw [List.length_set, hset])]

namespace Pass

variable {p : Pass F}

/-- The interleaved layout on the heads of one buffer, from `base` on. -/
def ropeFlat (p : Pass F) (n base : Nat) (xs : List F) : Res (List F) :=
  forRange (n * (p.headSize / 2)) (fun m xs =>
    rotate (p.angle (2 * m % p.headSize)) (base + 2 * m) (base + 2 * m + 1) xs) xs

private theorem pair_lt {n size h i w : Nat} (hw : n * size ≤ w) (hh : h < n) (hi : i < size) :
    h * size + i < w := by
  have := Nat.mul_le_mul_right size hh
  rw [Nat.succ_mul] at this
  omega

theorem ropeNeox_inRow (hneox : p.weights.ropeNeox = true) (heven : p.headSize = 2 * (p.headSize / 2))
    {k w n r : Nat} (hw : k * p.headSize = w) (hr : r < n) :
    InRow w n r (p.ropeNeox k (r * w)) (Causal.rotated p k) := by
  unfold ropeNeox Causal.rotated Causal.rotatedHead Causal.pairOf
  refine InRow.loop hr fun h _ hh => InRow.loop hr fun j _ hj => ?_
  rw [if_pos hneox]
  dsimp only
  rw [Nat.add_assoc (r * w + h * p.headSize), Nat.add_assoc (r * w), Nat.add_assoc (r * w)]
  exact rotate_inRow _ hr (pair_lt hw.le (by omega) (by omega)) (pair_lt hw.le (by omega) (by omega))

theorem ropeFlat_inRow (hneox : p.weights.ropeNeox = false) (heven : p.headSize = 2 * (p.headSize / 2))
    {k w n r : Nat} (hw : k * p.headSize ≤ w) (hr : r < n) :
    InRow w n r (p.ropeFlat k (r * w)) (Causal.rotated p k) := by
  have hheads : p.ropeFlat k (r * w) = forRange k fun h => forRange (p.headSize / 2) fun j xs =>
      rotate (p.angle (2 * (h * (p.headSize / 2) + j) % p.headSize))
        (r * w + 2 * (h * (p.headSize / 2) + j)) (r * w + 2 * (h * (p.headSize / 2) + j) + 1) xs :=
    funext fun xs => forRange_mul k (p.headSize / 2) _ xs
  rw [hheads]
  unfold Causal.rotated Causal.rotatedHead Causal.pairOf
  refine InRow.loop hr fun h _ hh => InRow.loop hr fun j _ hj => ?_
  -- pair `h * half + j` of the row is pair `j` of head `h`
  have hpair : 2 * (h * (p.headSize / 2) + j) = h * p.headSize + 2 * j := by
    rw [Nat.mul_add, Nat.mul_left_comm, ← heven]
  have hrem : (h * p.headSize + 2 * j) % p.headSize = 2 * j := by
    rw [Nat.add_comm, Nat.add_mul_mod_self_right, Nat.mod_eq_of_lt (by omega)]
  simp only [hneox, Bool.false_eq_true, if_false, hpair, hrem]
  rw [Nat.add_assoc (r * w), Nat.add_assoc (h * p.headSize)]
  exact rotate_inRow _ hr (pair_lt hw (by omega) (by omega)) (pair_lt hw (by omega) (by omega))

/-- The joint loop of the interleaved layout: `q` all along, the key while the pair lies in
`kv_dim`. The loop stops at `dim`, so heads of the key past those of `q` are not rotated. -/
private theorem ropePairs_eq (hp : p.EvenHeads) {off : Nat} {q q' keys keys' : List F}
    (hq : p.ropeFlat p.cfg.nHeads 0 q = .ok q')
    (hk : p.ropeFlat (min p.cfg.nHeads p.cfg.nKvHeads) off keys = .ok keys') :
    forRange ((p.cfg.dim + 1) / 2) (p.ropePair off) (q, keys) = .ok (q', keys') := by
  have hdim : p.cfg.dim = 2 * (p.cfg.nHeads * (p.headSize / 2)) := by
    rw [hp.dim, Nat.mul_left_comm, ← hp.even]
  have hpairs : (p.cfg.dim + 1) / 2 = p.cfg.nHeads * (p.headSize / 2) := by omega
  have hkv : p.kvDim = 2 * (p.cfg.nKvHeads * (p.headSize / 2)) := by
    rw [hp.kvDim, Nat.mul_left_comm, ← hp.even]
  have hfrontLe : min p.cfg.nHeads p.cfg.nKvHeads * (p.headSize / 2) ≤ p.cfg.nKvHeads * (p.headSize / 2) :=
    Nat.mul_le_mul_right _ (Nat.min_le_right _ _)
  obtain ⟨more, hmore⟩ : ∃ more, p.cfg.nHeads * (p.headSize / 2) =
      min p.cfg.nHeads p.cfg.nKvHeads * (p.headSize / 2) + more :=
    ⟨_, (Nat.add_sub_cancel' (Nat.mul_le_mul_right _ (Nat.min_le_left _ _))).symm⟩
  -- the loop over the key goes on, doing nothing, past `kv_dim`
  have hkeys : forRange (p.cfg.nHeads * (p.headSize / 2)) (fun m xs =>
      if 2 * m < p.kvDim then
        rotate (p.angle (2 * m % p.headSize)) (off + 2 * m) (off + 2 * m + 1) xs
      else .ok xs) keys = .ok keys' := by
    have hfront : forFrom 0 (min p.cfg.nHeads p.cfg.nKvHeads * (p.headSize / 2)) (fun m xs =>
        if 2 * m < p.kvDim then
          rotate (p.angle (2 * m % p.headSize)) (off + 2 * m) (off + 2 * m + 1) xs
        else .ok xs) keys = .ok keys' := by
      rw [← hk]
      unfold ropeFlat
      exact forFrom_congr (fun _ => True) trivial (fun m xs _ hm _ => if_pos (by omega))
        (fun _ _ _ _ _ => trivial)
    obtain ⟨last, hrest, rfl⟩ := @forFrom_ok _ _ (fun _ xs => xs = keys')
      (min p.cfg.nHeads p.cfg.nKvHeads * (p.headSize / 2)) more (fun m xs =>
        if 2 * m < p.kvDim then
          rotate (p.angle (2 * m % p.headSize)) (off + 2 * m) (off + 2 * m + 1) xs
        else .ok xs) keys' rfl (fun m xs hm hlt hxs => by
          refine ⟨xs, if_neg ?_, hxs⟩
          rcases Nat.le_total p.cfg.nHeads p.cfg.nKvHeads with hle | hle
          · rw [Nat.min_eq_left hle] at hm hlt hmore
            omega
          · rw [Nat.min_eq_right hle] at hm
            omega)
    rw [hmore, forRange, forFrom_add, hfront, ok_bind, Nat.zero_add, hrest]
  rw [hpairs]
  refine forFrom_pair (fun m a b a' b' _ hm ha hb => ?_) hq hkeys
  have hhalf : 0 < p.headSize / 2 := Nat.pos_of_mul_pos_left (Nat.lt_of_le_of_lt (Nat.zero_le _) hm |>.trans_eq (Nat.zero_add _))
  unfold ropePair
  dsimp only
  rw [rem_of_pos (by omega), ok_bind]
  rw [Nat.zero_add] at ha
  rw [ha, ok_bind]
  split
  next hin =>
    rw [if_pos hin] at hb
    rw [hb]
    rfl
  next hout =>
    rw [if_neg hout] at hb
    cases hb
    rfl

/-- The interleaved layout of a step, on the query and on row `r` of the key cache. -/
theorem ropePairs_rows (hp : p.EvenHeads) (hneox : p.weights.ropeNeox = false) {n r : Nat} (hr : r < n)
    {q keys : List F} (hq : q.length = p.cfg.dim) (hkeys : keys.length = n * p.kvDim) :
    ∃ q' k', Causal.rotated p p.cfg.nHeads q = .ok q' ∧ q'.length = p.cfg.dim ∧
      Causal.rotated p (min p.cfg.nHeads p.cfg.nKvHeads) (row p.kvDim keys r) = .ok k' ∧ k'.length = p.kvDim ∧
      forRange ((p.cfg.dim + 1) / 2) (p.ropePair (r * p.kvDim)) (q, keys) =
        .ok (q', setRow p.kvDim r k' keys) := by
  have hfront : min p.cfg.nHeads p.cfg.nKvHeads * p.headSize ≤ p.kvDim := by
    rw [hp.kvDim]
    exact Nat.mul_le_mul_right _ (Nat.min_le_right _ _)
  obtain ⟨q', hq', hrot, hlength⟩ :=
    (ropeFlat_inRow hneox hp.even hp.dim.symm.le Nat.zero_lt_one).whole hq
  obtain ⟨k', hrow, hk, hset⟩ := ropeFlat_inRow hneox hp.even hfront hr keys hkeys
  rw [Nat.zero_mul] at hq'
  exact ⟨q', k', hrot, hlength, hrow, hk, ropePairs_eq hp hq' hset⟩

/-- The rotation of a step, on the query and on row `r` of the key cache. The interleaved layout stops
at `dim`, so the key must not be longer. -/
theorem ropeBoth_rows (hp : p.EvenHeads) (hle : p.weights.ropeNeox = false → p.cfg.nKvHeads ≤ p.cfg.nHeads)
    (hsize : 0 < p.headSize) {n r : Nat} (hr : r < n) {q keys : List F} (hq : q.length = p.cfg.dim) (hkeys : keys.length = n * p.kvDim) :
    ∃ q' k', Causal.rotated p p.cfg.nHeads q = .ok q' ∧ q'.length = p.cfg.dim ∧
      Causal.rotated p p.cfg.nKvHeads (row p.kvDim keys r) = .ok k' ∧ k'.length = p.kvDim ∧
      p.ropeBoth (r * p.kvDim) q keys = .ok (q', setRow p.kvDim r k' keys) := by
  have hone : 0 < 1 := Nat.zero_lt_one
  unfold ropeBoth
  cases hneox : p.weights.ropeNeox with
  | true =>
    obtain ⟨q', hq', hrot, hlength⟩ :=
      (ropeNeox_inRow hneox hp.even hp.dim.symm hone).whole hq
    obtain ⟨k', hrow, hk, hset⟩ := ropeNeox_inRow hneox hp.even hp.kvDim.symm hr keys hkeys
    have hheads : (div p.kvDim p.headSize : Res Nat) = .ok p.cfg.nKvHeads := by
      rw [div_of_pos hsize, hp.kvDim, Nat.mul_div_cancel _ hsize]
    rw [Nat.zero_mul] at hq'
    refine ⟨q', k', hrot, hlength, hrow, hk, ?_⟩
    rw [if_pos rfl, hq', ok_bind, hheads, ok_bind, hset]
    rfl
  | false =>
    obtain ⟨q', k', hrot, hlength, hrow, hk, hrun⟩ := ropePairs_rows hp hneox hr hq hkeys
    rw [Nat.min_eq_right (hle hneox)] at hrow
    refine ⟨q', k', hrot, hlength, hrow, hk, ?_⟩
    rw [if_neg Bool.false_ne_true]
    exact hrun

theorem ropeBoth_eq (hp : p.WellShaped) (hsize : 0 < p.headSize) {n r : Nat} (hr : r < n)
    {q keys : List F} (hq : q.length = p.cfg.dim) (hkeys : keys.length = n * p.kvDim) :
    ∃ q' k', Causal.rotated p p.cfg.nHeads q = .ok q' ∧ q'.length = p.cfg.dim ∧
      Causal.rotated p p.cfg.nKvHeads (row p.kvDim keys r) = .ok k' ∧ k'.length = p.kvDim ∧
      p.ropeBoth (r * p.kvDim) q keys = .ok (q', setRow p.kvDim r k' keys) :=
  ropeBoth_rows hp.evenHeads (fun _ => hp.kv_le) hsize hr hq hkeys

end Pass

/-! ### Attention -/

theorem softmaxInplace_ok (x : List F) : ∃ att, softmaxInplace x = .ok att ∧ att.length = x.length := by
  unfold softmaxInplace
  dsimp only
  obtain ⟨sum, hsum⟩ := @canonicalSum_ok F _ (x.map fun v => F32.expf (F32.sub v (maxOf x))) _ (Nat.le_refl _)
  rw [hsum, ok_bind]
  exact ⟨_, rfl, by rw [List.length_map, List.length_map]⟩

namespace Causal

variable {p : Pass F} {q : List F} {keys values : List (List F)}

omit [F32 F] in
/-- The kv head of a query head. -/
theorem kvHead_lt (hp : p.WellShaped) {h : Nat} (hh : h < p.cfg.nHeads) :
    h / p.kvMul < p.cfg.nKvHeads := by
  refine Nat.div_lt_of_lt_mul ?_
  rw [← hp.group]
  exact hh

/-- Rows of the caches. -/
def AreRows (p : Pass F) (rows : List (List F)) : Prop :=
  ∀ k ∈ rows, k.length = p.kvDim

omit [F32 F] in
theorem length_kvHead (hp : p.WellShaped) {h : Nat} (hh : h < p.cfg.nHeads) {key : List F}
    (hkey : key.length = p.kvDim) : (row p.headSize key (h / p.kvMul)).length = p.headSize :=
  length_row (kvHead_lt hp hh) (by rw [hkey, hp.kvDim])

theorem score_ok (hp : p.WellShaped) (hq : q.length = p.cfg.dim) {h : Nat} (hh : h < p.cfg.nHeads)
    {key : List F} (hkey : key.length = p.kvDim) : ∃ v, score p q h key = .ok v := by
  have hhead : (row p.headSize q h).length = p.headSize := length_row hh (by rw [hq, hp.dim])
  have hkv := length_kvHead hp hh hkey
  obtain ⟨dot, hdot⟩ := canonicalDot_ok (Nat.le_of_eq hhead.symm) (Nat.le_of_eq hkv.symm)
  unfold score
  rw [hdot, ok_bind]
  exact ⟨_, rfl⟩

theorem valueSum_ok (hp : p.WellShaped) (hvalues : AreRows p values) {att : List F}
    (hatt : att.length = values.length) {h d : Nat} (hh : h < p.cfg.nHeads) (hd : d < p.headSize) :
    ∃ v, valueSum p att values h d = .ok v := by
  obtain ⟨column, hcolumn, hlength⟩ :=
    @mapM_ok Error F (List F) (fun value => index (row p.headSize value (h / p.kvMul)) d) values
      fun value hmem => ⟨_, index_of_lt (by rw [length_kvHead hp hh (hvalues value hmem)]; exact hd)⟩
  unfold valueSum
  rw [hcolumn, ok_bind]
  exact canonicalDot_ok (by omega) (by omega)

theorem head_ok (hp : p.WellShaped) (hq : q.length = p.cfg.dim) (hkeys : AreRows p keys)
    (hvalues : AreRows p values) (hboth : keys.length = values.length) {h : Nat}
    (hh : h < p.cfg.nHeads) : ∃ out, head p q keys values h = .ok out ∧ out.length = p.headSize := by
  obtain ⟨scores, hscores, hcount⟩ := mapM_ok fun key hmem => score_ok hp hq hh (hkeys key hmem)
  obtain ⟨att, hatt, hlength⟩ := softmaxInplace_ok scores
  unfold head
  rw [hscores, ok_bind, hatt, ok_bind]
  exact collectRange_ok fun d hd => valueSum_ok hp hvalues (by omega) hh hd

theorem attention_ok (hp : p.WellShaped) (hq : q.length = p.cfg.dim) (hkeys : AreRows p keys)
    (hvalues : AreRows p values) (hboth : keys.length = values.length) :
    ∃ heads : List (List F), attention p q keys values = .ok heads.flatten ∧ heads.length = p.cfg.nHeads ∧
      ∀ h out, heads[h]? = some out → head p q keys values h = .ok out ∧ out.length = p.headSize := by
  obtain ⟨heads, hheads, hcount⟩ := collectRange_ok fun h hh =>
    (head_ok hp hq hkeys hvalues hboth hh).imp fun _ hout => hout.1
  refine ⟨heads, ?_, hcount, fun h out hat => ?_⟩
  · unfold attention
    rw [hheads, ok_bind]
    rfl
  · have heach := (collectFrom_eq_ok hheads).2 h out hat
    rw [Nat.zero_add] at heach
    obtain ⟨hh, -⟩ := List.getElem?_eq_some_iff.mp hat
    obtain ⟨out', hout', hlength⟩ := head_ok hp hq hkeys hvalues hboth (by omega : h < p.cfg.nHeads)
    rw [heach] at hout'
    cases hout'
    exact ⟨heach, hlength⟩

end Causal

namespace Pass

variable {p : Pass F} {q keys values : List F}

/-- The row of the caches for position `t` in a layer. -/
def rowIndex (p : Pass F) (layer t : Nat) : Nat :=
  layer * p.cfg.seqLen + t

omit [F32 F] in
theorem rowOff_eq (layer t : Nat) : p.rowOff layer t = p.rowIndex layer t * p.kvDim :=
  (Nat.add_mul _ _ _).symm

omit [F32 F] in
theorem rowIndex_lt {layer t : Nat} (hlayer : layer < p.cfg.nLayers) (ht : t < p.cfg.seqLen) :
    p.rowIndex layer t < p.cfg.nLayers * p.cfg.seqLen := by
  have := Nat.mul_le_mul_right p.cfg.seqLen hlayer
  rw [Nat.succ_mul] at this
  unfold rowIndex
  omega

/-- Rows `0..count` of a layer. -/
def pastRows (p : Pass F) (cache : List F) (layer count : Nat) : List (List F) :=
  (List.range count).map fun t => row p.kvDim cache (p.rowIndex layer t)

omit [F32 F] in
theorem length_pastRows (cache : List F) (layer count : Nat) :
    (p.pastRows cache layer count).length = count := by
  unfold pastRows
  rw [List.length_map, List.length_range]

/-- The cells of a cache. -/
abbrev cells (p : Pass F) : Nat :=
  p.cfg.nLayers * p.cfg.seqLen * p.kvDim

omit [F32 F] in
theorem areRows_pastRows {cache : List F} (hcache : cache.length = p.cells) {layer count : Nat}
    (hlayer : layer < p.cfg.nLayers) (hcount : count ≤ p.cfg.seqLen) :
    Causal.AreRows p (p.pastRows cache layer count) := by
  intro key hmem
  obtain ⟨t, ht, rfl⟩ := List.mem_map.mp hmem
  exact length_row (rowIndex_lt hlayer (by simp only [List.mem_range] at ht; omega)) hcache

omit [F32 F] in
/-- Mapping over the rows is collecting over the positions. -/
theorem mapM_pastRows {α : Type} (cache : List F) (layer count : Nat) (f : List F → Res α) :
    (p.pastRows cache layer count).mapM f =
      collectRange count fun t => f (row p.kvDim cache (p.rowIndex layer t)) := by
  unfold pastRows
  rw [List.mapM_map, collectRange, collectFrom_eq_mapM, List.range_eq_range']
  rfl

theorem score_eq (hp : p.WellShaped) (hq : q.length = p.cfg.dim) (hkeys : keys.length = p.cells)
    {layer t h : Nat} (hlayer : layer < p.cfg.nLayers) (ht : t < p.cfg.seqLen) (hh : h < p.cfg.nHeads) :
    p.score layer q keys h (h / p.kvMul) t =
      Causal.score p q h (row p.kvDim keys (p.rowIndex layer t)) := by
  have hr := rowIndex_lt hlayer ht
  have hkv := Causal.kvHead_lt hp hh
  have hwidth : (row p.kvDim keys (p.rowIndex layer t)).length = p.cfg.nKvHeads * p.headSize := by
    rw [length_row hr hkeys, hp.kvDim]
  have hend := row_end_le hkv hwidth
  rw [length_row hr hkeys] at hend
  unfold score Causal.score
  dsimp only
  rw [rowOff_eq, Nat.add_assoc, slice_inRow hr hkeys (Nat.le_add_right _ _) hend,
    slice_eq_row hkv hwidth, ok_bind, slice_eq_row hh (by rw [hq, hp.dim]), ok_bind]

theorem valueSum_eq (hp : p.WellShaped) {layer h d : Nat} (hh : h < p.cfg.nHeads)
    (hd : d < p.headSize) (att : List F) :
    p.valueSum layer att values (h / p.kvMul) d =
      Causal.valueSum p att (p.pastRows values layer (p.pos + 1)) h d := by
  have hin : h / p.kvMul * p.headSize + d < p.kvDim := by
    rw [hp.kvDim]
    exact pair_lt (Nat.le_refl _) (Causal.kvHead_lt hp hh) hd
  unfold valueSum Causal.valueSum
  rw [mapM_pastRows, length_pastRows]
  congr 1
  refine collectRange_congr fun t _ => ?_
  rw [rowOff_eq, Nat.add_assoc, index_inRow hin, index_inRow hd]

/-- One head of the step: its part of the output is the head of the specification. -/
theorem attendHead_eq (hp : p.WellShaped) (hq : q.length = p.cfg.dim) (hkeys : keys.length = p.cells)
    {layer h : Nat} (hlayer : layer < p.cfg.nLayers)
    (hpos : p.pos < p.cfg.seqLen) (hh : h < p.cfg.nHeads) {out head : List F}
    (hout : out.length = p.cfg.nHeads * p.headSize)
    (hhead : Causal.head p q (p.pastRows keys layer (p.pos + 1))
      (p.pastRows values layer (p.pos + 1)) h = .ok head) :
    p.attendHead layer q keys values h out = .ok (setRow p.headSize h head out) := by
  have hscores : collectRange (p.pos + 1) (p.score layer q keys h (h / p.kvMul)) =
      (p.pastRows keys layer (p.pos + 1)).mapM (Causal.score p q h) := by
    rw [mapM_pastRows]
    exact collectRange_congr fun t ht => score_eq hp hq hkeys hlayer (by omega) hh
  unfold Causal.head at hhead
  obtain ⟨scores, hrun, hhead⟩ := bind_eq_ok.mp hhead
  obtain ⟨att, hsoft, hhead⟩ := bind_eq_ok.mp hhead
  obtain ⟨hlength, heach⟩ := collectFrom_eq_ok hhead
  have hcells : ∀ d, 0 ≤ d → d < 0 + p.headSize →
      p.valueSum layer att values (h / p.kvMul) d = .ok (head.getD d F32.zero) := by
    intro d _ hd
    have hat : head[d]? = some (head.getD d F32.zero) := by
      rw [List.getD_eq_getElem?_getD, List.getElem?_eq_getElem (by omega), Option.getD_some]
    rw [valueSum_eq hp hh (by omega), ← heach d _ hat, Nat.zero_add]
  have hend : h * p.headSize + p.headSize ≤ out.length := row_end_le hh hout
  have hvalues' : (List.range' (h * p.headSize) p.headSize).map
      (fun j => head.getD (j - h * p.headSize) F32.zero) = head := by
    refine List.ext_getElem? fun d => ?_
    rw [List.getElem?_map]
    by_cases hd : d < p.headSize
    · rw [List.getElem?_range' hd, Option.map_some, Nat.one_mul, Nat.add_sub_cancel_left,
        List.getD_eq_getElem?_getD, List.getElem?_eq_getElem (by omega), Option.getD_some]
    · rw [List.getElem?_eq_none (by rw [List.length_range']; omega), Option.map_none,
        List.getElem?_eq_none (by omega)]
  unfold attendHead
  rw [div_of_pos hp.kvMulPos, ok_bind, hscores, hrun, ok_bind, hsoft, ok_bind, forRange,
    forFrom_storeAt hcells (by omega), Nat.add_zero, fill_range' hend, hvalues']
  rfl

theorem attend_eq (hp : p.WellShaped) (hq : q.length = p.cfg.dim) (hkeys : keys.length = p.cells)
    (hvalues : values.length = p.cells) {layer : Nat} (hlayer : layer < p.cfg.nLayers)
    (hpos : p.pos < p.cfg.seqLen) (hmemory : p.cfg.dim * 4 < 2 ^ 63) :
    p.attend layer q keys values =
      Causal.attention p q (p.pastRows keys layer (p.pos + 1))
        (p.pastRows values layer (p.pos + 1)) := by
  obtain ⟨heads, hattention, hcount, heach⟩ := Causal.attention_ok hp hq
    (areRows_pastRows hkeys hlayer hpos) (areRows_pastRows hvalues hlayer hpos)
    (by rw [length_pastRows, length_pastRows])
  have hat : ∀ h < p.cfg.nHeads, heads[h]? = some (heads.getD h []) := by
    intro h hh
    rw [List.getD_eq_getElem?_getD, List.getElem?_eq_getElem (by omega), Option.getD_some]
  have hrun := @forRange_setRow Error F (p.attendHead layer q keys values) (fun h => heads.getD h []) p.cfg.nHeads p.headSize
    (List.replicate p.cfg.dim F32.zero) (by rw [List.length_replicate, hp.dim])
    (fun h hh => (heach h _ (hat h hh)).2)
    (fun h hh out hout _ => attendHead_eq hp hq hkeys hlayer hpos hh hout (heach h _ (hat h hh)).1)
  have hheads : (List.range p.cfg.nHeads).map (fun h => heads.getD h []) = heads := by
    refine List.ext_getElem? fun h => ?_
    rw [List.getElem?_map]
    by_cases hh : h < p.cfg.nHeads
    · rw [List.getElem?_range hh, Option.map_some, hat h hh]
    · rw [List.getElem?_eq_none (by rw [List.length_range]; omega), Option.map_none,
        List.getElem?_eq_none (by omega)]
  rw [hheads] at hrun
  unfold attend
  rw [zeroVec_of_lt hmemory, ok_bind]
  exact hrun.trans hattention.symm

end Pass

end VitniTensor
