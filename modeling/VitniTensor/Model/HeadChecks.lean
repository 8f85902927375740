import VitniTensor.Model.LinearChecks

/-!
# The heads of any model

The rotation and the attention of a step test nothing: on sizes that do not fit together they read past the end of a
vector or divide by zero. `HeadsFit` is the condition under which they return.
-/

namespace VitniTensor

open Outcome Check Exec Fill

variable {F : Type} [F32 F]

/-! ### Rotation -/

theorem faults_rotate (rot : F × F) (i j : Nat) (xs : List F) : Faults (rotate rot i j xs) := by
  unfold rotate
  refine (faults_index xs i).bind fun a _ => ?_
  refine (faults_index xs j).bind fun b _ => ?_
  exact (faults_store xs i _).bind fun ys _ => faults_store ys j _

theorem rotate_eq_ok {rot : F × F} {i j : Nat} {xs ys : List F} (h : rotate rot i j xs = .ok ys) :
    i < xs.length ∧ j < xs.length ∧ ys.length = xs.length := by
  have hi : i < xs.length := by
    obtain ⟨a, ha, -⟩ := bind_eq_ok.mp h
    exact (List.getElem?_eq_some_iff.mp (index_eq_ok.mp ha)).1
  have hj : j < xs.length := by
    obtain ⟨a, -, h⟩ := bind_eq_ok.mp h
    obtain ⟨b, hb, -⟩ := bind_eq_ok.mp h
    exact (List.getElem?_eq_some_iff.mp (index_eq_ok.mp hb)).1
  rw [rotate_ok hi hj] at h
  cases h
  exact ⟨hi, hj, by rw [List.length_set, List.length_set]⟩

namespace Pass

variable {p : Pass F}

theorem faults_ropeBoth (off : Nat) (q keys : List F) : Faults (p.ropeBoth off q keys) := by
  have hneox : ∀ n base xs, Faults (p.ropeNeox n base xs) := fun n base xs =>
    faults_forFrom (fun h ys => faults_forFrom (fun j zs => faults_rotate _ _ _ zs) ys) xs
  unfold ropeBoth
  split
  next =>
    refine (hneox _ _ q).bind fun q' _ => ?_
    exact (faults_div _ _).bind fun n _ => (hneox n off keys).bind fun keys' _ => faults_ok _
  next =>
    refine faults_forFrom (fun m s => ?_) (q, keys)
    unfold ropePair
    refine (faults_rem _ _).bind fun i _ => ?_
    refine (faults_rotate _ _ _ s.1).bind fun q' _ => ?_
    split
    next => exact (faults_rotate _ _ _ s.2).bind fun keys' _ => faults_ok _
    next => exact faults_ok _

theorem ropePair_eq_ok {off m : Nat} {s t : List F × List F} (h : p.ropePair off m s = .ok t) :
    0 < p.headSize ∧ 2 * m + 1 < s.1.length ∧ (2 * m < p.kvDim → off + 2 * m + 1 < s.2.length) ∧
      t.1.length = s.1.length ∧ t.2.length = s.2.length := by
  obtain ⟨i, hi, h⟩ := bind_eq_ok.mp h
  obtain ⟨q', hq, h⟩ := bind_eq_ok.mp h
  obtain ⟨-, hpair, hlength⟩ := rotate_eq_ok hq
  refine ⟨(rem_eq_ok.mp hi).1, hpair, ?_⟩
  split at h
  next hkey =>
    obtain ⟨keys', hkeys, h⟩ := bind_eq_ok.mp h
    obtain ⟨-, hend, hlength'⟩ := rotate_eq_ok hkeys
    cases h
    exact ⟨fun _ => hend, hlength, hlength'⟩
  next hkey =>
    cases h
    exact ⟨fun h => absurd h hkey, hlength, rfl⟩

theorem ropeBoth_lengths {off : Nat} {q keys : List F} {t : List F × List F} (h : p.ropeBoth off q keys = .ok t) :
    t.1.length = q.length ∧ t.2.length = keys.length := by
  have hneox : ∀ {n base : Nat} {xs ys : List F}, p.ropeNeox n base xs = .ok ys → ys.length = xs.length :=
    fun {n base xs ys} hrun => forFrom_keeps (fun zs : List F => zs.length = xs.length)
      (fun _ us vs hus hvs => forFrom_keeps (fun zs : List F => zs.length = xs.length)
        (fun _ us vs hus hvs => (rotate_eq_ok hvs).2.2.trans hus) hus hvs) rfl hrun
  unfold ropeBoth at h
  split at h
  next =>
    obtain ⟨q', hq, h⟩ := bind_eq_ok.mp h
    obtain ⟨n, -, h⟩ := bind_eq_ok.mp h
    obtain ⟨keys', hkeys, h⟩ := bind_eq_ok.mp h
    cases h
    exact ⟨hneox hq, hneox hkeys⟩
  next =>
    refine forFrom_keeps (fun s : List F × List F => s.1.length = q.length ∧ s.2.length = keys.length)
      (fun i s t hs hstep => ?_) ⟨rfl, rfl⟩ h
    obtain ⟨-, -, -, h1, h2⟩ := ropePair_eq_ok hstep
    exact ⟨h1.trans hs.1, h2.trans hs.2⟩

/-- The pairs of the interleaved layout are pairs of the query, and a key of odd width is not the last one. -/
def PairsFit (p : Pass F) (layer : Nat) : Prop :=
  p.cfg.dim = p.cfg.nHeads * p.headSize ∧ p.cfg.dim % 2 = 0 ∧
    (p.kvDim % 2 = 0 ∨ p.rowOff layer p.pos + p.kvDim < p.cells)

/-- What the rotation and the attention of a layer rely on. -/
structure HeadsFit (p : Pass F) (layer : Nat) : Prop where
  size : 0 < p.headSize
  group : 0 < p.kvMul
  pairs : p.weights.ropeNeox = false → p.PairsFit layer
  /-- The key and the value of the last head end in the cache. -/
  last : p.rowOff layer p.pos + ((p.cfg.nHeads - 1) / p.kvMul + 1) * p.headSize ≤ p.cells

instance (p : Pass F) (layer : Nat) : Decidable (p.PairsFit layer) :=
  inferInstanceAs (Decidable (_ ∧ _ ∧ _))

instance (p : Pass F) (layer : Nat) : Decidable (p.HeadsFit layer) :=
  decidable_of_iff (0 < p.headSize ∧ 0 < p.kvMul ∧ (p.weights.ropeNeox = false → p.PairsFit layer) ∧
      p.rowOff layer p.pos + ((p.cfg.nHeads - 1) / p.kvMul + 1) * p.headSize ≤ p.cells)
    ⟨fun ⟨h, h', h'', h'''⟩ => ⟨h, h', h'', h'''⟩, fun h => ⟨h.size, h.group, h.pairs, h.last⟩⟩

/-- Caches of the size that the configuration asks for, and no observers. -/
structure Ready (p : Pass F) (s : RunState F × Observers F) : Prop where
  observers : s.2 = Observers.none
  keys : s.1.keyCache.length = p.cells
  values : s.1.valueCache.length = p.cells
  regime : s.1.regime = p.regime

omit [F32 F] in
theorem row_fits {layer : Nat} (hlayer : layer < p.cfg.nLayers) (hpos : p.pos < p.cfg.seqLen) :
    p.rowOff layer p.pos + p.kvDim ≤ p.cells := by
  have hrow := Nat.mul_le_mul_right p.kvDim (rowIndex_lt hlayer hpos)
  rw [Nat.succ_mul, ← rowOff_eq] at hrow
  exact hrow

section Heads

variable {layer : Nat} {q keys values : List F}

/-- The rotation on sizes that fit. -/
theorem ropeBoth_ok (hfit : p.HeadsFit layer) (hlayer : layer < p.cfg.nLayers) (hpos : p.pos < p.cfg.seqLen)
    (hq : q.length = p.cfg.nHeads * p.headSize) (hkeys : keys.length = p.cells) :
    ∃ q' keys', p.ropeBoth (p.rowOff layer p.pos) q keys = .ok (q', keys') ∧ q'.length = q.length ∧
      keys'.length = keys.length := by
  have hrow := row_fits hlayer hpos
  have hneox : ∀ {n base : Nat} {xs : List F}, base + n * p.headSize ≤ xs.length →
      ∃ ys, p.ropeNeox n base xs = .ok ys ∧ ys.length = xs.length := by
    intro n base xs hend
    refine forFrom_ok (fun _ (ys : List F) => ys.length = xs.length) rfl fun h ys _ hh hys => ?_
    refine forFrom_ok (fun _ (zs : List F) => zs.length = xs.length) hys fun j zs _ hj hzs => ?_
    have hhead := Nat.mul_le_mul_right p.headSize (show h + 1 ≤ n by omega)
    rw [Nat.succ_mul] at hhead
    rw [rotate_ok (by omega) (by omega)]
    exact ⟨_, rfl, by rw [List.length_set, List.length_set, hzs]⟩
  unfold ropeBoth
  by_cases hlayout : p.weights.ropeNeox = true
  · rw [if_pos hlayout]
    obtain ⟨q', hq', hqlen⟩ := @hneox p.cfg.nHeads 0 q (by omega)
    have hheads := Nat.div_mul_le_self p.kvDim p.headSize
    obtain ⟨keys', hkeys', hklen⟩ := @hneox (p.kvDim / p.headSize) (p.rowOff layer p.pos) keys (by omega)
    refine ⟨q', keys', ?_, hqlen, hklen⟩
    rw [hq', ok_bind, div_of_pos hfit.size, ok_bind, hkeys', ok_bind]
    rfl
  · obtain ⟨hdim, heven, hkey⟩ := hfit.pairs (by simpa using hlayout)
    rw [if_neg hlayout]
    have hloop : ∃ t, forRange ((p.cfg.dim + 1) / 2) (p.ropePair (p.rowOff layer p.pos)) (q, keys) = .ok t ∧
        (fun (s : List F × List F) => s.1.length = q.length ∧ s.2.length = keys.length) t := by
      refine forFrom_ok (fun _ (s : List F × List F) => s.1.length = q.length ∧ s.2.length = keys.length) ⟨rfl, rfl⟩
        fun m s _ hm hs => ?_
      obtain ⟨hs1, hs2⟩ := hs
      unfold ropePair
      dsimp only
      rw [rem_of_pos hfit.size, ok_bind, rotate_ok (by omega) (by omega), ok_bind]
      split
      next hlt =>
        rw [rotate_ok (by omega) (by omega), ok_bind]
        exact ⟨_, rfl, by rw [List.length_set, List.length_set, hs1], by rw [List.length_set, List.length_set, hs2]⟩
      next => exact ⟨_, rfl, by rw [List.length_set, List.length_set, hs1], hs2⟩
    obtain ⟨⟨q', keys'⟩, hloop, hlengths⟩ := hloop
    exact ⟨q', keys', hloop, hlengths⟩

/-- What a rotation that returns has relied on. -/
theorem fit_of_ropeBoth (hp : p.Derived) (hdim : 0 < p.cfg.dim) (hgroup : 0 < p.kvMul)
    (hq : q.length = p.cfg.nHeads * p.headSize) (hkeys : keys.length = p.cells) {t : List F × List F}
    (h : p.ropeBoth (p.rowOff layer p.pos) q keys = .ok t) :
    0 < p.headSize ∧ (p.weights.ropeNeox = false → p.PairsFit layer) := by
  unfold ropeBoth at h
  split at h
  next hlayout =>
    obtain ⟨q', -, h⟩ := bind_eq_ok.mp h
    obtain ⟨n, hn, -⟩ := bind_eq_ok.mp h
    exact ⟨(div_eq_ok.mp hn).1, fun hother => absurd hlayout (by simp [hother])⟩
  next =>
    have hturn : ∀ m < (p.cfg.dim + 1) / 2, 0 < p.headSize ∧ 2 * m + 1 < q.length ∧
        (2 * m < p.kvDim → p.rowOff layer p.pos + 2 * m + 1 < keys.length) := by
      intro m hm
      obtain ⟨u, u', ⟨hu1, hu2⟩, hstep⟩ := forFrom_turn
        (fun (s : List F × List F) => s.1.length = q.length ∧ s.2.length = keys.length)
        (fun i s t hs hstep => by
          obtain ⟨-, -, -, h1, h2⟩ := ropePair_eq_ok hstep
          exact ⟨h1.trans hs.1, h2.trans hs.2⟩) ⟨rfl, rfl⟩ h hm
      obtain ⟨hsize, hpair, hkey, -⟩ := ropePair_eq_ok hstep
      rw [Nat.zero_add] at hpair hkey
      exact ⟨hsize, hu1 ▸ hpair, fun hlt => hu2 ▸ hkey hlt⟩
    obtain ⟨hsize, hlast, -⟩ := hturn ((p.cfg.dim + 1) / 2 - 1) (by omega)
    have hle := hp.qOut_le
    have hdim' : p.cfg.dim = p.cfg.nHeads * p.headSize := by omega
    refine ⟨hsize, fun _ => ⟨hdim', by omega, ?_⟩⟩
    -- where the width of a key is odd, its last pair reads one cell more
    by_cases hodd : p.kvDim % 2 = 0
    · exact .inl hodd
    right
    have hkv : p.kvDim ≤ p.cfg.dim := by
      rw [hp.kvDim_eq hdim', hdim']
      rw [hp.kvMul] at hgroup
      exact Nat.mul_le_mul_right _ (Nat.div_pos_iff.mp hgroup).2
    obtain ⟨-, -, hkey⟩ := hturn ((p.kvDim - 1) / 2) (by omega)
    have := hkey (by omega)
    omega

/-! ### Attention -/

theorem faults_score (layer : Nat) (q keys : List F) (h kvHead t : Nat) : Faults (p.score layer q keys h kvHead t) := by
  unfold score
  refine (faults_slice keys _ _).bind fun kSlice hk => ?_
  refine (faults_slice q _ _).bind fun qSlice hq => ?_
  have hkLength := length_of_slice hk
  have hqLength := length_of_slice hq
  exact (Faults.of_ok (canonicalDot_ok (by omega) (by omega))).bind fun v _ => faults_ok _

theorem faults_valueSum (layer : Nat) {att : List F} (hatt : att.length = p.pos + 1) (values : List F) (kvHead d : Nat) :
    Faults (p.valueSum layer att values kvHead d) := by
  unfold valueSum
  refine (faults_collectFrom fun t => faults_index values _).bind fun vcol hvcol => ?_
  obtain ⟨hlength, -⟩ := collectFrom_eq_ok hvcol
  exact .of_ok (canonicalDot_ok (by omega) (by omega))

theorem faults_attendHead (layer : Nat) (q keys values : List F) (h : Nat) (out : List F) :
    Faults (p.attendHead layer q keys values h out) := by
  unfold attendHead
  refine (faults_div _ _).bind fun kvHead _ => ?_
  refine (faults_collectFrom (faults_score layer q keys h kvHead)).bind fun scores hscores => ?_
  obtain ⟨hlength, -⟩ := collectFrom_eq_ok hscores
  obtain ⟨att, hatt, hcount⟩ := softmaxInplace_ok scores
  rw [hatt, ok_bind]
  refine faults_forFrom (fun d out => ?_) out
  exact (faults_valueSum layer (hcount.trans hlength) values kvHead _).bind fun v _ => faults_store _ _ v

theorem score_ok {h kvHead t : Nat} (hq : h * p.headSize + p.headSize ≤ q.length)
    (hkeys : p.rowOff layer t + kvHead * p.headSize + p.headSize ≤ keys.length) :
    ∃ v, p.score layer q keys h kvHead t = .ok v := by
  unfold score
  dsimp only
  rw [slice_of_le (Nat.le_add_right _ _) hkeys, ok_bind, slice_of_le (Nat.le_add_right _ _) hq, ok_bind]
  obtain ⟨v, hv⟩ := @canonicalDot_ok F _
    ((q.drop (h * p.headSize)).take (h * p.headSize + p.headSize - h * p.headSize))
    ((keys.drop (p.rowOff layer t + kvHead * p.headSize)).take
      (p.rowOff layer t + kvHead * p.headSize + p.headSize - (p.rowOff layer t + kvHead * p.headSize)))
    p.headSize (by simp only [List.length_take, List.length_drop]; omega)
    (by simp only [List.length_take, List.length_drop]; omega)
  rw [hv, ok_bind]
  exact ⟨_, rfl⟩

theorem valueSum_ok {att : List F} (hatt : att.length = p.pos + 1) {kvHead d : Nat}
    (hvalues : ∀ t ≤ p.pos, p.rowOff layer t + kvHead * p.headSize + d < values.length) :
    ∃ v, p.valueSum layer att values kvHead d = .ok v := by
  obtain ⟨vcol, hvcol, hlength⟩ := collectRange_ok fun t (ht : t < p.pos + 1) =>
    ⟨_, index_of_lt (ε := Error) (hvalues t (Nat.le_of_lt_succ ht))⟩
  unfold valueSum
  rw [hvcol, ok_bind]
  exact canonicalDot_ok (by omega) (by omega)

theorem attendHead_ok (hfit : p.HeadsFit layer) (hq : q.length = p.cfg.nHeads * p.headSize) (hkeys : keys.length = p.cells)
    (hvalues : values.length = p.cells) {h : Nat} (hh : h < p.cfg.nHeads) {out : List F}
    (hout : p.cfg.nHeads * p.headSize ≤ out.length) :
    ∃ out', p.attendHead layer q keys values h out = .ok out' ∧ out'.length = out.length := by
  have hlast := hfit.last
  have hend := Nat.mul_le_mul_right p.headSize hh
  rw [Nat.succ_mul] at hend
  -- no head reads behind the last one, no position behind this one
  have hkvHead : h / p.kvMul * p.headSize + p.headSize ≤ ((p.cfg.nHeads - 1) / p.kvMul + 1) * p.headSize := by
    rw [← Nat.succ_mul]
    exact Nat.mul_le_mul_right _ (Nat.succ_le_succ (Nat.div_le_div_right (by omega)))
  have hspan : ∀ t ≤ p.pos, p.rowOff layer t + h / p.kvMul * p.headSize + p.headSize ≤ p.cells := by
    intro t ht
    have hoff : p.rowOff layer t ≤ p.rowOff layer p.pos := Nat.add_le_add_left (Nat.mul_le_mul_right _ ht) _
    omega
  obtain ⟨scores, hscores, hlength⟩ := collectRange_ok fun t (ht : t < p.pos + 1) =>
    @score_ok F _ p layer q keys h (h / p.kvMul) t (by omega) (by rw [hkeys]; exact hspan t (Nat.le_of_lt_succ ht))
  obtain ⟨att, hatt, hcount⟩ := softmaxInplace_ok scores
  unfold attendHead
  rw [div_of_pos hfit.group, ok_bind, hscores, ok_bind, hatt, ok_bind]
  refine forFrom_ok (fun _ (ys : List F) => ys.length = out.length) rfl fun d ys _ hd hys => ?_
  obtain ⟨v, hv⟩ := @valueSum_ok F _ p layer values att (hcount.trans hlength) (h / p.kvMul) d fun t ht => by
    have := hspan t ht
    omega
  unfold storeAt
  rw [hv, ok_bind, store_of_lt (by omega)]
  exact ⟨_, rfl, by rw [List.length_set, hys]⟩

/-- What an attention that returns has relied on. -/
theorem fit_of_attend (hheads : 0 < p.cfg.nHeads) (hkeys : keys.length = p.cells) {out : List F}
    (h : p.attend layer q keys values = .ok out) :
    0 < p.kvMul ∧ p.rowOff layer p.pos + ((p.cfg.nHeads - 1) / p.kvMul + 1) * p.headSize ≤ p.cells := by
  obtain ⟨zeros, -, h⟩ := bind_eq_ok.mp h
  obtain ⟨ys, ys', hhead⟩ := forFrom_each h (i := p.cfg.nHeads - 1) (by omega)
  rw [Nat.zero_add] at hhead
  obtain ⟨kvHead, hdiv, hhead⟩ := bind_eq_ok.mp hhead
  obtain ⟨hgroup, rfl⟩ := div_eq_ok.mp hdiv
  obtain ⟨scores, hscores, -⟩ := bind_eq_ok.mp hhead
  obtain ⟨hlength, heach⟩ := collectFrom_eq_ok hscores
  have hscore := heach p.pos _ (List.getElem?_eq_getElem (by omega))
  rw [Nat.zero_add] at hscore
  obtain ⟨kSlice, hslice, -⟩ := bind_eq_ok.mp hscore
  obtain ⟨⟨-, hend⟩, -⟩ := slice_eq_ok.mp hslice
  rw [hkeys, Nat.add_assoc, ← Nat.succ_mul] at hend
  exact ⟨hgroup, hend⟩

/-- The rotation and the attention of a layer. -/
def heads (p : Pass F) (layer : Nat) (q : List F) : Step F (List F) := do
  let q ← p.rope layer q
  let (run, _) ← state
  lift (p.attend layer q run.keyCache run.valueCache)

theorem eval_heads (run : RunState F) (obs : Observers F) :
    (p.heads layer q).eval (run, obs) =
      match p.ropeBoth (p.rowOff layer p.pos) q run.keyCache with
      | .ok r => (p.attend layer r.1 r.2 run.valueCache, ({ run with keyCache := r.2 }, obs))
      | .error stop => (.error stop, (run, obs)) := by
  cases hrope : p.ropeBoth (p.rowOff layer p.pos) q run.keyCache <;> simp [heads, rope, eval_bind, hrope]

/-- They return exactly where the heads fit. -/
theorem checked_heads (hp : p.Derived) (hlayer : layer < p.cfg.nLayers) (hpos : p.pos < p.cfg.seqLen)
    (hdim : 0 < p.cfg.dim) (hmemory : p.cfg.dim * 4 < 2 ^ 63) (hq : q.length = p.cfg.nHeads * p.headSize) :
    Exec.Checked p.Ready [.trust (p.HeadsFit layer)] (fun out s => out.length = p.cfg.dim ∧ p.Ready s) (p.heads layer q) := by
  rintro ⟨run, obs⟩ ⟨hobs, hkeys, hvalues, hregime⟩
  have hwidth := hp.qOut_le
  have hattend : ∀ q keys, Faults (p.attend layer q keys run.valueCache) := fun q keys => by
    unfold attend
    rw [zeroVec_of_lt hmemory, ok_bind]
    exact faults_forFrom (faults_attendHead layer q keys run.valueCache) _
  rw [eval_heads]
  cases hrope : p.ropeBoth (p.rowOff layer p.pos) q run.keyCache with
  | error stop =>
    have hfault := faults_ropeBoth _ q run.keyCache stop hrope
    refine Faults.checked (fun _ h => Except.error.inj h ▸ hfault) (fun hfit => ?_) fun _ h => nomatch h
    obtain ⟨q', keys', hok, -⟩ := ropeBoth_ok hfit hlayer hpos hq hkeys
    rw [hok] at hrope
    cases hrope
  | ok r =>
    obtain ⟨hqr, hkr⟩ := ropeBoth_lengths hrope
    dsimp only at hqr hkr hkeys hvalues
    refine (hattend r.1 r.2).checked (fun hfit => ?_) fun out hout => ?_
    · obtain ⟨out, hout, hlength⟩ : ∃ out, p.attend layer r.1 r.2 run.valueCache = .ok out ∧ out.length = p.cfg.dim := by
        unfold attend
        rw [zeroVec_of_lt hmemory, ok_bind]
        refine forFrom_ok (fun _ (ys : List F) => ys.length = p.cfg.dim) List.length_replicate fun h ys _ hh hys => ?_
        obtain ⟨out, hout, hlength⟩ := attendHead_ok hfit (hqr.trans hq) (hkr.trans hkeys) hvalues (by omega : h < p.cfg.nHeads)
          (show p.cfg.nHeads * p.headSize ≤ ys.length by omega)
        exact ⟨out, hout, hlength.trans hys⟩
      exact ⟨out, hout, hlength, hobs, hkr.trans hkeys, hvalues, hregime⟩
    · obtain ⟨hgroup, hlast⟩ := fit_of_attend hp.heads (hkr.trans hkeys) hout
      obtain ⟨hsize, hpairs⟩ := fit_of_ropeBoth hp hdim hgroup hq hkeys hrope
      exact ⟨hsize, hgroup, hpairs, hlast⟩

end Heads

end Pass

end VitniTensor
