import VitniTensor.Gpu.Composition
import VitniTensor.Model.CacheFrame

/-!
# The composition of a step

The quantized forward pass computes its composition: where a step returns, the composition evaluates
to the logits and to the rows that the step leaves in the caches, whatever the caches held before.
-/

namespace VitniTensor

open Outcome Exec Rows

variable {F : Type} [F32 F]

/-! ### Rotations -/

/-- The pair, `off` cells further on. -/
def PairTurn.shift (off : Nat) (t : PairTurn F) : PairTurn F :=
  { t with first := off + t.first, second := off + t.second }

theorem turned_append (ts us : List (PairTurn F)) (xs : List F) :
    turned (ts ++ us) xs = turned ts xs >>= turned us :=
  List.foldlM_append

/-- A loop over pairs. -/
theorem forFrom_rotate (turn : Nat → PairTurn F) (lo n : Nat) (xs : List F) :
    forFrom lo n (fun i xs => rotate ((turn i).cos, (turn i).sin) (turn i).first (turn i).second xs) xs =
      turned ((List.range' lo n).map turn) xs := by
  induction n generalizing lo xs with
  | zero => rfl
  | succ n ih =>
    rw [forFrom, List.range'_succ, List.map_cons]
    exact congrArg _ (funext fun ys => ih (lo + 1) ys)

/-- A loop of loops over pairs. -/
theorem forFrom_turned (turns : Nat → List (PairTurn F)) (lo n : Nat) (xs : List F) :
    forFrom lo n (fun i xs => turned (turns i) xs) xs = turned ((List.range' lo n).flatMap turns) xs := by
  induction n generalizing lo xs with
  | zero => rfl
  | succ n ih =>
    rw [forFrom, List.range'_succ, List.flatMap_cons, turned_append]
    exact congrArg _ (funext fun ys => ih (lo + 1) ys)

namespace Pass

variable {p : Pass F}

/-- The split-half layout, from `base` on. -/
theorem ropeNeox_eq (n base : Nat) (xs : List F) :
    p.ropeNeox n base xs = turned ((p.headTurns n).map (PairTurn.shift base)) xs := by
  unfold ropeNeox headTurns
  rw [List.map_flatMap, @List.range_eq_range' n, ← forFrom_turned]
  refine congrArg (fun body => forFrom 0 n body xs) (funext fun h => funext fun ys => ?_)
  rw [List.map_map, List.range_eq_range', ← forFrom_rotate]
  refine congrArg (fun body => forFrom 0 (p.headSize / 2) body ys) (funext fun j => funext fun zs => ?_)
  simp only [Function.comp_apply, headTurn, PairTurn.shift, Nat.add_assoc]

/-- The joint loop of the interleaved layout. -/
theorem ropePairs_turned {off lo n : Nat} {q keys : List F} {out : List F × List F}
    (h : forFrom lo n (p.ropePair off) (q, keys) = .ok out) :
    turned ((List.range' lo n).map p.pairTurn) q = .ok out.1 ∧
      turned ((((List.range' lo n).filter (2 * · < p.kvDim)).map p.pairTurn).map (PairTurn.shift off)) keys =
        .ok out.2 := by
  -- Induction on the pairs left; each turns two cells of the query and, inside `kvDim`, of the
  -- keys.
  induction n generalizing lo q keys with
  | zero =>
    cases h
    exact ⟨rfl, rfl⟩
  | succ n ih =>
    obtain ⟨⟨q', keys'⟩, hpair, h⟩ := bind_eq_ok.mp h
    obtain ⟨num, hnum, hpair⟩ := bind_eq_ok.mp hpair
    obtain ⟨q₁, hq, hpair⟩ := bind_eq_ok.mp hpair
    obtain ⟨-, rfl⟩ := rem_eq_ok.mp hnum
    rw [List.range'_succ, List.map_cons]
    split at hpair
    next hin =>
      obtain ⟨keys₁, hkeys, hpair⟩ := bind_eq_ok.mp hpair
      cases hpair
      obtain ⟨hrestQ, hrestK⟩ := ih h
      rw [List.filter_cons_of_pos (by simpa using hin), List.map_cons, List.map_cons]
      exact ⟨bind_eq_ok.mpr ⟨q', hq, hrestQ⟩, bind_eq_ok.mpr ⟨keys', hkeys, hrestK⟩⟩
    -- Past the keys' width, the pair turns the query alone.
    next hout =>
      cases hpair
      obtain ⟨hrestQ, hrestK⟩ := ih h
      rw [List.filter_cons_of_neg (by simpa using hout)]
      exact ⟨bind_eq_ok.mpr ⟨q', hq, hrestQ⟩, hrestK⟩

/-- What the rotation of a step does to the query, and to the key at `off`. -/
theorem ropeBoth_turned {off : Nat} {q keys : List F} {out : List F × List F}
    (h : p.ropeBoth off q keys = .ok out) :
    turned p.qTurns q = .ok out.1 ∧ turned (p.kTurns.map (PairTurn.shift off)) keys = .ok out.2 := by
  unfold ropeBoth at h
  unfold qTurns kTurns
  split at h
  -- NeoX layout: the query's heads, then the heads of the keys, each in its own loop.
  next hneox =>
    obtain ⟨q', hq, h⟩ := bind_eq_ok.mp h
    obtain ⟨nKv, hnKv, h⟩ := bind_eq_ok.mp h
    obtain ⟨keys', hkeys, h⟩ := bind_eq_ok.mp h
    cases h
    obtain ⟨-, rfl⟩ := div_eq_ok.mp hnKv
    have hzero : (p.headTurns p.cfg.nHeads).map (PairTurn.shift 0) = p.headTurns p.cfg.nHeads := by
      have hid : (PairTurn.shift 0 : PairTurn F → PairTurn F) = id := funext fun t => by simp [PairTurn.shift]
      rw [hid, List.map_id]
    rw [ropeNeox_eq, hzero] at hq
    rw [ropeNeox_eq] at hkeys
    rw [if_pos hneox, if_pos hneox]
    exact ⟨hq, hkeys⟩
  -- Interleaved layout: one loop over the pairs, for both at once.
  next hneox =>
    rw [if_neg hneox, if_neg hneox, List.range_eq_range']
    exact ropePairs_turned h

end Pass

/-- Pairs inside of a row. -/
theorem turned_inRow {w n r : Nat} (hr : r < n) {ts : List (PairTurn F)}
    (hts : ∀ t ∈ ts, t.first < w ∧ t.second < w) :
    InRow w n r (turned (ts.map (PairTurn.shift (r * w)))) (turned ts) := by
  induction ts with
  | nil => exact InRow.pure hr
  | cons t ts ih =>
    obtain ⟨hfirst, hsecond⟩ := hts t List.mem_cons_self
    exact (rotate_inRow _ hr hfirst hsecond).bind hr (ih fun u hu => hts u (List.mem_cons_of_mem t hu))

/-! ### Caches that agree from a layer on -/

omit [F32 F] in
/-- Equal numbers of cells, and the same ones from the first row of a layer on. -/
structure Pass.AgreeFrom (p : Pass F) (layer : Nat) (xs ys : List F) : Prop where
  length : xs.length = ys.length
  cells : ∀ i, layer * p.cfg.seqLen * p.kvDim ≤ i → xs[i]? = ys[i]?

namespace Pass.AgreeFrom

variable {p : Pass F} {layer : Nat} {xs ys : List F}

omit [F32 F] in
theorem refl (p : Pass F) (layer : Nat) (xs : List F) : p.AgreeFrom layer xs xs :=
  ⟨rfl, fun _ _ => rfl⟩

omit [F32 F] in
theorem index (h : p.AgreeFrom layer xs ys) {i : Nat} (hi : layer * p.cfg.seqLen * p.kvDim ≤ i) :
    (Outcome.index xs i : Res F) = Outcome.index ys i := by
  unfold Outcome.index
  rw [h.cells i hi]

omit [F32 F] in
theorem slice (h : p.AgreeFrom layer xs ys) {lo hi : Nat} (hlo : layer * p.cfg.seqLen * p.kvDim ≤ lo) :
    (Outcome.slice xs lo hi : Res (List F)) = Outcome.slice ys lo hi := by
  have hdrop : xs.drop lo = ys.drop lo := by
    refine List.ext_getElem? fun i => ?_
    rw [List.getElem?_drop, List.getElem?_drop, h.cells _ (by omega)]
  unfold Outcome.slice
  rw [h.length, hdrop]

omit [F32 F] in
/-- A row that is written to both. -/
theorem setRow (h : p.AgreeFrom layer xs ys) {n r : Nat} (hr : r < n) (hxs : xs.length = n * p.kvDim) {row : List F}
    (hrow : row.length = p.kvDim) : p.AgreeFrom layer (Rows.setRow p.kvDim r row xs) (Rows.setRow p.kvDim r row ys) := by
  have hys := h.length.symm.trans hxs
  refine ⟨?_, fun i hi => ?_⟩
  · rw [length_setRow hr hxs hrow, length_setRow hr hys hrow, h.length]
  · rw [getElem?_setRow hr hxs hrow, getElem?_setRow hr hys hrow, h.cells i hi]

omit [F32 F] in
/-- A row of an earlier layer that is written to one of them. -/
theorem setRow_earlier (h : p.AgreeFrom layer xs ys) {n r : Nat} (hr : r < n) (hys : ys.length = n * p.kvDim)
    (hearlier : r < layer * p.cfg.seqLen) {row : List F} (hrow : row.length = p.kvDim) :
    p.AgreeFrom layer xs (Rows.setRow p.kvDim r row ys) := by
  refine ⟨?_, fun i hi => ?_⟩
  · rw [length_setRow hr hys hrow, h.length]
  · have hend := Nat.mul_le_mul_right p.kvDim hearlier
    rw [Nat.succ_mul] at hend
    rw [getElem?_setRow hr hys hrow, if_neg (by omega), h.cells i hi]

end Pass.AgreeFrom

namespace Pass

variable {p : Pass F} {layer : Nat} {q keys keys' values values' : List F}

omit [F32 F] in
theorem rowOff_le (t : Nat) : layer * p.cfg.seqLen * p.kvDim ≤ p.rowOff layer t :=
  Nat.le_add_right _ _

/-- Attention reads no cell before its layer. -/
theorem attend_congr (hkeys : p.AgreeFrom layer keys keys') (hvalues : p.AgreeFrom layer values values') :
    p.attend layer q keys values = p.attend layer q keys' values' := by
  -- Scores and sums read the cache from row `layer * seqLen` on, where the two agree.
  have hscore : ∀ h kvHead, p.score layer q keys h kvHead = p.score layer q keys' h kvHead := by
    intro h kvHead
    funext t
    unfold score
    dsimp only
    rw [hkeys.slice (Nat.le_trans (rowOff_le t) (Nat.le_add_right _ _))]
  have hsum : ∀ att kvHead d, p.valueSum layer att values kvHead d = p.valueSum layer att values' kvHead d := by
    intro att kvHead d
    unfold valueSum
    congr 1
    refine collectRange_congr fun t _ => hvalues.index ?_
    exact Nat.le_trans (rowOff_le t) (Nat.le_trans (Nat.le_add_right _ _) (Nat.le_add_right _ _))
  have hhead : p.attendHead layer q keys values = p.attendHead layer q keys' values' := by
    funext h out
    unfold attendHead
    simp only [hscore, funext (hsum _ _)]
  unfold attend
  rw [hhead]

end Pass

namespace RunState

variable {p : Pass F}

omit [F32 F] in
theorem writeRows_concat (log : List (KeyValue F)) (kv : KeyValue F) (layer : Nat) (s : RunState F) :
    s.writeRows p layer (log ++ [kv]) = (s.writeRows p layer log).writeRow p (layer + log.length) kv := by
  induction log generalizing layer s with
  | nil => rfl
  | cons first log ih =>
    rw [List.cons_append, writeRows, ih, writeRows, List.length_cons, Nat.add_assoc, Nat.add_comm 1]

omit [F32 F] in
/-- The rows of earlier layers. -/
theorem agree_writeRows (hpos : p.pos < p.cfg.seqLen) {log : List (KeyValue F)} (hlog : ∀ kv ∈ log, kv.IsRow p)
    {first layer : Nat} (hcount : first + log.length ≤ layer) (hlayer : layer ≤ p.cfg.nLayers) {s t : RunState F}
    (ht : t.Fits p) (hkeys : p.AgreeFrom layer s.keyCache t.keyCache)
    (hvalues : p.AgreeFrom layer s.valueCache t.valueCache) :
    p.AgreeFrom layer s.keyCache (t.writeRows p first log).keyCache ∧
      p.AgreeFrom layer s.valueCache (t.writeRows p first log).valueCache := by
  -- A row written for an earlier layer lies before all rows of `layer`.
  induction log generalizing first t with
  | nil => exact ⟨hkeys, hvalues⟩
  | cons kv log ih =>
    rw [List.length_cons] at hcount
    have hkv := hlog kv List.mem_cons_self
    have hr : p.rowIndex first p.pos < p.cfg.nLayers * p.cfg.seqLen := Pass.rowIndex_lt (by omega) hpos
    have hearlier : p.rowIndex first p.pos < layer * p.cfg.seqLen := by
      have hle := Nat.mul_le_mul_right p.cfg.seqLen (show first + 1 ≤ layer by omega)
      rw [Nat.succ_mul] at hle
      unfold Pass.rowIndex
      omega
    refine ih (fun kv' hmem => hlog kv' (List.mem_cons_of_mem kv hmem)) (by omega)
      (ht.writeRow (by omega) hpos kv hkv) ?_ ?_
    · exact hkeys.setRow_earlier hr ht.keys hearlier hkv.1
    · exact hvalues.setRow_earlier hr ht.values hearlier hkv.2

end RunState

/-! ### One layer -/

section Layer

variable {p : Pass F} {s : RunState F} {token : UInt32} {blk : QuantLayer F} {v : Value F} {x x' : Tensor F}

/-- Query, key and value before the rotation. -/
theorem projected_values (hp : p.Derived) (hv : v.Denotes p s token x) {q k u : List F}
    (h : projected p blk x = .ok (q, k, u)) :
    (k.length = p.kvDim ∧ (p.vValue blk v).eval p s token = .ok u ∧ u.length = p.kvDim) ∧
      (p.qValue blk v).eval p s token = turned p.qTurns q ∧
      (p.kValue blk v).eval p s token = turned p.kTurns k := by
  -- The function projects in this order: norm, query, key, value, then the biases.
  obtain ⟨xb, hxb, h⟩ := bind_eq_ok.mp h
  obtain ⟨outDim, hout, h⟩ := bind_eq_ok.mp h
  obtain ⟨q₀, hq, h⟩ := bind_eq_ok.mp h
  obtain ⟨k₀, hk, h⟩ := bind_eq_ok.mp h
  obtain ⟨u₀, hu, h⟩ := bind_eq_ok.mp h
  cases h
  cases hp.attnQOutDim_eq hout
  have hnorm := eval_normValue hv hxb
  refine ⟨⟨?_, ?_, ?_⟩, ?_, ?_⟩
  · rw [length_addBias, length_linearDispatch hk]
  · exact eval_biasValue (eval_linearValue hnorm hu) (length_linearDispatch hu) _
  · rw [length_addBias, length_linearDispatch hu]
  · unfold Pass.qValue
    rw [Value.eval, eval_biasValue (eval_linearValue hnorm hq) (length_linearDispatch hq), ok_bind]
  · unfold Pass.kValue
    rw [Value.eval, eval_biasValue (eval_linearValue hnorm hk) (length_linearDispatch hk), ok_bind]

/-- What a layer that returned went through. -/
theorem layerStep_inv (hplan : p.plan = none) {layer : Nat} {t : RunState F × Observers F}
    (h : (p.layerStep layer x).eval (s, Observers.none) = (.ok x', t)) :
    ∃ blk q k u keys values q' keys' heads, p.weights.layers[layer]? = some blk ∧
      projected p blk x = .ok (q, k, u) ∧
      copyInto s.keyCache (p.rowOff layer p.pos) (p.rowOff layer p.pos + p.kvDim) k = (.ok keys : Res (List F)) ∧
      copyInto s.valueCache (p.rowOff layer p.pos) (p.rowOff layer p.pos + p.kvDim) u = (.ok values : Res (List F)) ∧
      p.ropeBoth (p.rowOff layer p.pos) q keys = .ok (q', keys') ∧
      p.attend layer q' keys' values = .ok heads ∧ afterHeads p blk x heads = .ok x' ∧
      t = ({ s with keyCache := keys', valueCache := values }, Observers.none) := by
  -- The calls of one layer one by one, each with the state it leaves.
  obtain ⟨blk, t₁, hindex, h⟩ := eval_bind_eq_ok.mp h
  obtain ⟨hblk, rfl⟩ := Prod.mk.inj hindex
  obtain ⟨⟨q, k, u⟩, t₂, hquiet, h⟩ := eval_bind_eq_ok.mp h
  rw [(quiet_project layer blk x).eval] at hquiet
  obtain ⟨hproject, rfl⟩ := Prod.mk.inj hquiet
  obtain ⟨_, t₃, hcache, h⟩ := eval_bind_eq_ok.mp h
  -- The key row is stored, then the value row.
  unfold Pass.cacheRow at hcache
  rw [eval_bind_ok (eval_state _)] at hcache
  obtain ⟨keys, t₄, hlift, hcache⟩ := eval_bind_eq_ok.mp hcache
  obtain ⟨hkeys, rfl⟩ := Prod.mk.inj hlift
  rw [eval_update_bind] at hcache
  obtain ⟨values, t₅, hlift, hcache⟩ := eval_bind_eq_ok.mp hcache
  obtain ⟨hvalues, rfl⟩ := Prod.mk.inj hlift
  obtain ⟨-, rfl⟩ := Prod.mk.inj hcache
  -- The rotation rewrites the stored key row in place.
  obtain ⟨q', t₆, hrope, h⟩ := eval_bind_eq_ok.mp h
  unfold Pass.rope at hrope
  rw [eval_bind_ok (eval_state _)] at hrope
  obtain ⟨⟨q₁, keys'⟩, t₇, hlift, hrope⟩ := eval_bind_eq_ok.mp hrope
  obtain ⟨hboth, rfl⟩ := Prod.mk.inj hlift
  obtain ⟨hq, rfl⟩ := Prod.mk.inj hrope
  cases hq
  rw [eval_bind_ok (eval_state _)] at h
  obtain ⟨heads, t₈, hlift, h⟩ := eval_bind_eq_ok.mp h
  obtain ⟨hheads, rfl⟩ := Prod.mk.inj hlift
  -- What follows the heads neither reads nor writes the caches.
  rw [(quiet_afterHeads hplan layer blk x heads).eval] at h
  obtain ⟨hafter, rfl⟩ := Prod.mk.inj h
  exact ⟨blk, q, k, u, keys, values, q', keys', heads, index_eq_ok.mp hblk, hproject, hkeys, hvalues, hboth, hheads,
    hafter, rfl⟩

/-- The rotation of a step works on the row that it just wrote. -/
theorem ropeBoth_row (hturns : ∀ t ∈ p.kTurns, t.first < p.kvDim ∧ t.second < p.kvDim) {r n : Nat} (hr : r < n)
    {cache keys keys' q k q' : List F} (hcache : cache.length = n * p.kvDim) (hk : k.length = p.kvDim)
    (hkeys : copyInto cache (r * p.kvDim) (r * p.kvDim + p.kvDim) k = (.ok keys : Res (List F)))
    (h : p.ropeBoth (r * p.kvDim) q keys = .ok (q', keys')) :
    turned p.qTurns q = .ok q' ∧
      ∃ k', turned p.kTurns k = .ok k' ∧ k'.length = p.kvDim ∧ keys' = setRow p.kvDim r k' cache := by
  rw [copyInto_setRow hr hcache hk] at hkeys
  cases hkeys
  obtain ⟨hq, hkeys⟩ := Pass.ropeBoth_turned h
  obtain ⟨k', hk', hlength, hset⟩ := turned_inRow hr hturns _ (by rw [length_setRow hr hcache hk, hcache])
  rw [row_setRow hr hcache hk] at hk'
  rw [hset, setRow_setRow hr hcache hk hlength] at hkeys
  exact ⟨hq, k', hk', hlength, (Except.ok.inj hkeys).symm⟩

/-- A block once its heads are there. -/
theorem afterHeads_value {layer : Nat} (hv : v.Denotes p s token x) {heads : List F}
    (hheads : (p.attendValue layer blk v).eval p s token = .ok heads) (h : afterHeads p blk x heads = .ok x') :
    (p.layerValue layer blk v).Denotes p s token x' := by
  -- Output projection, residual, norm, gate and up, SiLU, down projection, residual.
  obtain ⟨out, hout, h⟩ := bind_eq_ok.mp h
  obtain ⟨outT, houtT, h⟩ := bind_eq_ok.mp h
  obtain ⟨mid, hmid, h⟩ := bind_eq_ok.mp h
  obtain ⟨xb, hxb, h⟩ := bind_eq_ok.mp h
  obtain ⟨gate, hgate, h⟩ := bind_eq_ok.mp h
  obtain ⟨up, hup, h⟩ := bind_eq_ok.mp h
  obtain ⟨inner, hinner, h⟩ := bind_eq_ok.mp h
  obtain ⟨down, hdown, h⟩ := bind_eq_ok.mp h
  obtain ⟨downT, hdownT, hadd⟩ := bind_eq_ok.mp h
  have hmidValue : (p.midValue layer blk v).Denotes p s token mid :=
    eval_add hv (eval_linearValue hheads hout) houtT hmid
  have hnorm := eval_normValue hmidValue hxb
  have hsilu : (p.innerValue blk (p.midValue layer blk v)).eval p s token = .ok inner := by
    unfold Pass.innerValue
    rw [Value.eval, eval_linearValue hnorm hgate, ok_bind, eval_linearValue hnorm hup, ok_bind]
    exact hinner
  exact eval_add hmidValue (eval_linearValue hsilu hdown) hdownT hadd

/-- Attention on the caches of the step's begin, and on those that the earlier layers have written to. -/
theorem heads_value {log : List (KeyValue F)} (hlog : ∀ kv ∈ log, kv.IsRow p) (hlayer : log.length < p.cfg.nLayers)
    (hpos : p.pos < p.cfg.seqLen) (hs : s.Fits p) {q k u : List F} (hq : (p.qValue blk v).eval p s token = .ok q)
    (hk : (p.kValue blk v).eval p s token = .ok k) (hu : (p.vValue blk v).eval p s token = .ok u)
    (hrow : KeyValue.IsRow p (k, u)) :
    (p.attendValue log.length blk v).eval p s token =
      p.attend log.length q (s.writeRows p 0 (log ++ [(k, u)])).keyCache
        (s.writeRows p 0 (log ++ [(k, u)])).valueCache := by
  -- The values were written by the kernels before; the attention reads this layer's rows only.
  have hr := Pass.rowIndex_lt hlayer hpos
  obtain ⟨hkeys, hvalues⟩ := RunState.agree_writeRows hpos hlog (Nat.le_of_eq (Nat.zero_add _)) (Nat.le_of_lt hlayer) hs
    (.refl p _ s.keyCache) (.refl p _ s.valueCache)
  rw [RunState.writeRows_concat, Nat.zero_add]
  unfold Pass.attendValue
  rw [Value.eval, hq, ok_bind, hk, ok_bind, hu, ok_bind]
  dsimp only
  change (copyInto s.keyCache (p.rowOff log.length p.pos) (p.rowOff log.length p.pos + p.kvDim) k >>= fun keys =>
    copyInto s.valueCache (p.rowOff log.length p.pos) (p.rowOff log.length p.pos + p.kvDim) u >>= fun values =>
      p.attend log.length q keys values) = _
  rw [Pass.rowOff_eq, copyInto_setRow hr hs.keys hrow.1, ok_bind, copyInto_setRow hr hs.values hrow.2, ok_bind]
  -- Rows of earlier layers do not matter, so the logged rows may be there or not.
  exact Pass.attend_congr (hkeys.setRow hr hs.keys hrow.1) (hvalues.setRow hr hs.values hrow.2)

/-- **One layer.** A layer that returned computed its composition, and wrote its row. -/
theorem layerStep_value (hp : p.Derived) (hplan : p.plan = none)
    (hturns : ∀ t ∈ p.kTurns, t.first < p.kvDim ∧ t.second < p.kvDim) (hpos : p.pos < p.cfg.seqLen) (hs : s.Fits p)
    {log : List (KeyValue F)} (hlog : ∀ kv ∈ log, kv.IsRow p) (hlayer : log.length < p.cfg.nLayers)
    (hv : v.Denotes p s token x) {t : RunState F × Observers F}
    (h : (p.layerStep log.length x).eval (s.writeRows p 0 log, Observers.none) = (.ok x', t)) :
    ∃ blk kv, p.weights.layers[log.length]? = some blk ∧ kv.IsRow p ∧
      t = (s.writeRows p 0 (log ++ [kv]), Observers.none) ∧ (p.layerValue log.length blk v).Denotes p s token x' ∧
      (p.kValue blk v).eval p s token = .ok kv.1 ∧ (p.vValue blk v).eval p s token = .ok kv.2 := by
  obtain ⟨hfits, -⟩ := RunState.rows_writeRows hpos log hlog 0 (by omega) hs
  have hr := Pass.rowIndex_lt hlayer hpos
  -- The layer's three writes come out as one logged row: the key turned, the value as
  -- projected.
  obtain ⟨blk, q, k, u, keys, values, q', keys', heads, hblk, hproject, hkeys, hvalues, hboth, hheads, hafter, rfl⟩ :=
    layerStep_inv hplan h
  obtain ⟨⟨hk, hu, hulen⟩, hqTurned, hkTurned⟩ := projected_values hp hv hproject
  rw [Pass.rowOff_eq] at hkeys hvalues hboth
  obtain ⟨hq', k', hk', hklen, rfl⟩ := ropeBoth_row hturns hr hfits.keys hk hkeys hboth
  rw [copyInto_setRow hr hfits.values hulen] at hvalues
  cases hvalues
  have hkValue := hkTurned.trans hk'
  have hattend := heads_value hlog hlayer hpos hs (hqTurned.trans hq') hkValue hu ⟨hklen, hulen⟩
  rw [RunState.writeRows_concat, Nat.zero_add] at hattend
  refine ⟨blk, (k', u), hblk, ⟨hklen, hulen⟩, ?_, afterHeads_value hv (hattend.trans hheads) hafter, hkValue, hu⟩
  rw [RunState.writeRows_concat, Nat.zero_add]
  rfl

end Layer

/-! ### A whole step -/

section Step

variable {p : Pass F} {s : RunState F} {token : UInt32}

/-- The composition of a cache row evaluates to the row. -/
def RowDenotes (p : Pass F) (s : RunState F) (token : UInt32) (kv : Value F × Value F) (row : KeyValue F) : Prop :=
  kv.1.eval p s token = .ok row.1 ∧ kv.2.eval p s token = .ok row.2

/-- The layers behind those that wrote `log`. -/
theorem layerSteps_value (hp : p.Derived) (hplan : p.plan = none)
    (hturns : ∀ t ∈ p.kTurns, t.first < p.kvDim ∧ t.second < p.kvDim) (hpos : p.pos < p.cfg.seqLen) (hs : s.Fits p)
    {n : Nat} {log : List (KeyValue F)} (hlog : ∀ kv ∈ log, kv.IsRow p) (hcount : log.length + n ≤ p.cfg.nLayers)
    {v : Value F} {x x' : Tensor F} (hv : v.Denotes p s token x) {t : RunState F × Observers F}
    (h : (forFrom log.length n p.layerStep x).eval (s.writeRows p 0 log, Observers.none) = (.ok x', t)) :
    ∃ rest : List (KeyValue F), rest.length = n ∧ (∀ kv ∈ rest, kv.IsRow p) ∧
      t = (s.writeRows p 0 (log ++ rest), Observers.none) ∧
      (p.layersValue log.length ((p.weights.layers.drop log.length).take n) v).1.Denotes p s token x' ∧
      List.Forall₂ (RowDenotes p s token) (p.layersValue log.length ((p.weights.layers.drop log.length).take n) v).2
        rest := by
  -- Induction on the layers left; the log grows by the row the layer wrote.
  induction n generalizing log v x with
  | zero =>
    cases h
    refine ⟨[], rfl, fun kv hmem => absurd hmem List.not_mem_nil, by rw [List.append_nil], ?_⟩
    rw [List.take_zero]
    exact ⟨hv, .nil⟩
  | succ n ih =>
    obtain ⟨mid, t₁, hfirst, h⟩ := eval_bind_eq_ok.mp h
    obtain ⟨blk, kv, hblk, hkv, rfl, hmid, hkey, hvalue⟩ :=
      layerStep_value hp hplan hturns hpos hs hlog (by omega) hv hfirst
    have hlog' : ∀ kv' ∈ log ++ [kv], KeyValue.IsRow p kv' := by
      intro kv' hmem
      rcases List.mem_append.mp hmem with hold | hnew
      · exact hlog kv' hold
      · rw [List.mem_singleton.mp hnew]
        exact hkv
    -- The next layer's index is the length of the log so far.
    have hnext : log.length + 1 = (log ++ [kv]).length := by rw [List.length_append, List.length_singleton]
    rw [hnext] at h
    obtain ⟨rest, hlength, hrest, rfl, hlast, hrows⟩ := ih hlog' (by omega) hmid h
    rw [← hnext] at hlast hrows
    obtain ⟨hlt, hat⟩ := List.getElem?_eq_some_iff.mp hblk
    rw [List.drop_eq_getElem_cons hlt, hat, List.take_succ_cons]
    refine ⟨kv :: rest, by rw [List.length_cons, hlength], ?_, by rw [List.append_assoc]; rfl, hlast,
      .cons ⟨hkey, hvalue⟩ hrows⟩
    exact List.forall_mem_cons.mpr ⟨hkv, hrest⟩

/-- **The composition of a step.** A step that returned computed its composition: that evaluates to the
logits, and to the rows that the step wrote. -/
theorem forward_value (hp : p.Derived) (hplan : p.plan = none)
    (hturns : 0 < p.cfg.nLayers → ∀ t ∈ p.kTurns, t.first < p.kvDim ∧ t.second < p.kvDim)
    (hpos : 0 < p.cfg.nLayers → p.pos < p.cfg.seqLen) (hs : s.Fits p) {logits : Tensor F}
    {t : RunState F × Observers F} (h : (p.forward token).eval (s, Observers.none) = (.ok logits, t)) :
    ∃ log : List (KeyValue F), log.length = p.cfg.nLayers ∧ (∀ kv ∈ log, kv.IsRow p) ∧
      t = (s.writeRows p 0 log, Observers.none) ∧
      (∃ ys, (p.logitsValue (p.layersValue 0 p.blocks .embedding).1).eval p s token = .ok ys ∧
        vectorTensor ys p.cfg.vocabSize = .ok logits) ∧
      List.Forall₂ (RowDenotes p s token) (p.layersValue 0 p.blocks .embedding).2 log := by
  obtain ⟨x, t₁, hembed, h⟩ := eval_bind_eq_ok.mp h
  obtain ⟨x', t₂, hloop, hlogits⟩ := eval_bind_eq_ok.mp h
  rw [(quiet_embed hplan token).eval] at hembed
  obtain ⟨hx, rfl⟩ := Prod.mk.inj hembed
  -- The embedded row is what the first launch writes into `x`.
  obtain ⟨row, hrow, hx⟩ := bind_eq_ok.mp hx
  have hstart : (Value.embedding : Value F).Denotes p s token x := ⟨row, hrow, vectorTensor_iff.mp hx⟩
  have hlayers : ∃ log : List (KeyValue F), log.length = p.cfg.nLayers ∧ (∀ kv ∈ log, kv.IsRow p) ∧
      t₂ = (s.writeRows p 0 log, Observers.none) ∧
      (p.layersValue 0 p.blocks .embedding).1.Denotes p s token x' ∧
      List.Forall₂ (RowDenotes p s token) (p.layersValue 0 p.blocks .embedding).2 log := by
    unfold Pass.blocks
    -- Without layers nothing is known about `pos`, and nothing is needed.
    rcases Nat.eq_zero_or_pos p.cfg.nLayers with hnone | hsome
    · rw [hnone] at hloop ⊢
      cases hloop
      rw [List.take_zero]
      exact ⟨[], rfl, fun kv hmem => absurd hmem List.not_mem_nil, rfl, hstart, .nil⟩
    · have hempty : ∀ kv ∈ ([] : List (KeyValue F)), KeyValue.IsRow p kv := fun kv hmem => absurd hmem List.not_mem_nil
      exact layerSteps_value hp hplan (hturns hsome) (hpos hsome) hs hempty (Nat.le_of_eq (Nat.zero_add _)) hstart hloop
  obtain ⟨log, hlength, hlog, rfl, hlast, hrows⟩ := hlayers
  rw [(quiet_logits hplan x').eval] at hlogits
  obtain ⟨hhead, rfl⟩ := Prod.mk.inj hlogits
  obtain ⟨xf, hxf, hhead⟩ := bind_eq_ok.mp hhead
  obtain ⟨ys, hys, hvector⟩ := bind_eq_ok.mp hhead
  exact ⟨log, hlength, hlog, rfl, ⟨ys, eval_linearValue (eval_normValue hlast hxf) hys, hvector⟩, hrows⟩

end Step

end VitniTensor
