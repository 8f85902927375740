import VitniTensor.Model.CacheFrame
import VitniTensor.Model.CausalTotal

/-!
# Incremental decoding

Fed token by token, the cached step computes the causal transformer. The specification goes
layer by layer over all positions, the steps go position by position through all layers; the
rows that the steps leave in the caches are the specification's keys and values.
-/

namespace VitniTensor

open Outcome Exec Rows

variable {F : Type} [F32 F]

/-- Query, key and value of every position in a layer. -/
abbrev Projections (F : Type) := List (List F × KeyValue F)

/-- Keys and values of the first `n` positions. -/
def Projections.past (qkv : Projections F) (n : Nat) : List (List F) × List (List F) :=
  ((qkv.take n).map (·.2.1), (qkv.take n).map (·.2.2))

omit [F32 F] in
theorem Projections.past_succ {qkv : Projections F} {n : Nat} {own : List F × KeyValue F}
    (hown : qkv[n]? = some own) :
    qkv.past (n + 1) = ((qkv.past n).1 ++ [own.2.1], (qkv.past n).2 ++ [own.2.2]) := by
  unfold past
  rw [List.take_add_one, hown, List.map_append, List.map_append]
  rfl

/-! ### What the specification computes -/

section Trace

variable {p : Pass F}

/-- One layer on the residuals `xs`: its projections, and the residuals after it. -/
structure LayerRun (p : Pass F) (blk : QuantLayer F) (xs : List (Tensor F)) (qkv : Projections F)
    (xs' : List (Tensor F)) : Prop where
  count : qkv.length = xs.length ∧ xs'.length = xs.length
  each : ∀ (i : Nat) (x : Tensor F), xs[i]? = some x → ∃ own x',
    qkv[i]? = some own ∧ xs'[i]? = some x' ∧ Causal.queryKeyValue (p.atPos i) blk x = .ok own ∧
      Causal.block p blk x own.1 (qkv.past (i + 1)).1 (qkv.past (i + 1)).2 = .ok x'

/-- All layers, one after the other. -/
inductive Trace (p : Pass F) :
    List (QuantLayer F) → List (Tensor F) → List (Projections F) → List (Tensor F) → Prop where
  | nil (xs : List (Tensor F)) : Trace p [] xs [] xs
  | cons {blk : QuantLayer F} {blks : List (QuantLayer F)} {xs mid xs' : List (Tensor F)}
      {qkv : Projections F} {qs : List (Projections F)} (first : LayerRun p blk xs qkv mid)
      (rest : Trace p blks mid qs xs') : Trace p (blk :: blks) xs (qkv :: qs) xs'

theorem layer_ok (hp : p.WellShaped) (hdim : 0 < p.cfg.dim) {blk : QuantLayer F}
    (hblk : blk.Sized p.cfg p.headSize) {xs : List (Tensor F)}
    (hxs : ∀ x ∈ xs, x.IsVector p.cfg.dim) :
    ∃ qkv xs', Causal.layer p blk xs = .ok xs' ∧ LayerRun p blk xs qkv xs' ∧
      ∀ x ∈ xs', x.IsVector p.cfg.dim := by
  have hpos : ∀ i, (p.atPos i).WellShaped := fun i =>
    ⟨hp.dim, hp.kvDim, hp.group, hp.even, hp.kvMulPos, hp.head, hp.fits⟩
  have hindex : ∀ i < xs.length, ∃ x, (index xs i : Res (Tensor F)) = .ok x ∧ x.IsVector p.cfg.dim :=
    fun i hi => ⟨xs[i], index_of_lt hi, hxs _ (List.getElem_mem hi)⟩
  obtain ⟨qkv, hqkv, hcount⟩ : ∃ qkv : Projections F, (collectRange xs.length fun i => do
      let x ← index xs i
      Causal.queryKeyValue (p.atPos i) blk x) = .ok qkv ∧ qkv.length = xs.length := by
    refine collectRange_ok fun i hi => ?_
    obtain ⟨x, hx, hvec⟩ := hindex i hi
    obtain ⟨q, k, v, hown, -⟩ := queryKeyValue_ok (hpos i) hdim hblk hvec
    rw [hx, ok_bind, hown]
    exact ⟨_, rfl⟩
  -- the rows of every position have the width of a cache row
  have hown : ∀ i own, qkv[i]? = some own → ∃ x, (index xs i : Res (Tensor F)) = .ok x ∧
      x.IsVector p.cfg.dim ∧ Causal.queryKeyValue (p.atPos i) blk x = .ok own ∧
      own.1.length = p.cfg.dim ∧ KeyValue.IsRow p own.2 := by
    intro i own hget
    have hi : i < xs.length := by
      obtain ⟨hlt, -⟩ := List.getElem?_eq_some_iff.mp hget
      omega
    obtain ⟨x, hx, hvec⟩ := hindex i hi
    obtain ⟨q, k, v, hrun, hq, hk, hv⟩ := queryKeyValue_ok (hpos i) hdim hblk hvec
    have heach := (collectFrom_eq_ok hqkv).2 i own hget
    rw [Nat.zero_add, hx, ok_bind, hrun] at heach
    cases heach
    exact ⟨x, hx, hvec, hrun, hq, hk, hv⟩
  have hrows : ∀ n, Causal.AreRows p (qkv.past n).1 ∧ Causal.AreRows p (qkv.past n).2 := by
    intro n
    refine ⟨fun key hmem => ?_, fun value hmem => ?_⟩
    all_goals
      obtain ⟨own, hmem', rfl⟩ := List.mem_map.mp hmem
      obtain ⟨i, hget⟩ := List.getElem?_of_mem (List.mem_of_mem_take hmem')
      obtain ⟨-, -, -, -, -, hrow⟩ := hown i own hget
    · exact hrow.1
    · exact hrow.2
  have hblock : ∀ i own, qkv[i]? = some own → ∃ x x', (index xs i : Res (Tensor F)) = .ok x ∧
      Causal.queryKeyValue (p.atPos i) blk x = .ok own ∧ x'.IsVector p.cfg.dim ∧
      Causal.block p blk x own.1 (qkv.past (i + 1)).1 (qkv.past (i + 1)).2 = .ok x' := by
    intro i own hget
    obtain ⟨x, hx, hvec, hrun, hq, -⟩ := hown i own hget
    obtain ⟨x', hx', hvec'⟩ := block_ok hp hdim hblk hvec hq (hrows (i + 1)).1 (hrows (i + 1)).2
      (by unfold Projections.past; rw [List.length_map, List.length_map])
    exact ⟨x, x', hx, hrun, hvec', hx'⟩
  have hout : ∀ i < xs.length, ∃ x', (do
      let x ← index xs i
      let own ← index qkv i
      let past := qkv.take (i + 1)
      Causal.block p blk x own.1 (past.map (·.2.1)) (past.map (·.2.2)) : Res (Tensor F)) = .ok x' ∧
      x'.IsVector p.cfg.dim := by
    intro i hi
    have hget : qkv[i]? = some qkv[i] := List.getElem?_eq_getElem (by omega)
    obtain ⟨x, x', hx, -, hvec', hx'⟩ := hblock i _ hget
    refine ⟨x', ?_, hvec'⟩
    rw [hx, ok_bind, index_of_lt (show i < qkv.length by omega), ok_bind]
    exact hx'
  obtain ⟨xs', hxs', hcount'⟩ := collectRange_ok fun i hi => (hout i hi).imp fun _ h => h.1
  have heach := (collectFrom_eq_ok hxs').2
  refine ⟨qkv, xs', ?_, ⟨⟨hcount, hcount'⟩, fun i x hget => ?_⟩, fun x' hmem => ?_⟩
  · unfold Causal.layer
    rw [hqkv, ok_bind, hxs']
  · obtain ⟨hi, rfl⟩ := List.getElem?_eq_some_iff.mp hget
    have hget' : qkv[i]? = some qkv[i] := List.getElem?_eq_getElem (by omega)
    obtain ⟨x, x', hx, hrun, -, hx'⟩ := hblock i _ hget'
    rw [index_of_lt hi] at hx
    cases hx
    have hlast := heach i xs'[i] (List.getElem?_eq_getElem (by omega))
    rw [Nat.zero_add, index_of_lt hi, ok_bind, index_of_lt (show i < qkv.length by omega), ok_bind]
      at hlast
    refine ⟨_, _, hget', List.getElem?_eq_getElem (by omega), hrun, hlast⟩
  · obtain ⟨i, hget⟩ := List.getElem?_of_mem hmem
    obtain ⟨hi, -⟩ := List.getElem?_eq_some_iff.mp hget
    obtain ⟨x'', hrun, hvec⟩ := hout i (by omega)
    have hlast := heach i x' hget
    rw [Nat.zero_add, hrun] at hlast
    cases hlast
    exact hvec

/-- The fold of the specification over its layers. -/
theorem layers_ok (hp : p.WellShaped) (hdim : 0 < p.cfg.dim) {blks : List (QuantLayer F)}
    (hblks : ∀ blk ∈ blks, blk.Sized p.cfg p.headSize) {xs : List (Tensor F)}
    (hxs : ∀ x ∈ xs, x.IsVector p.cfg.dim) :
    ∃ qs xs', blks.foldlM (fun xs blk => Causal.layer p blk xs) xs = .ok xs' ∧
      Trace p blks xs qs xs' ∧ ∀ x ∈ xs', x.IsVector p.cfg.dim := by
  induction blks generalizing xs with
  | nil => exact ⟨[], xs, rfl, .nil xs, hxs⟩
  | cons blk blks ih =>
    obtain ⟨qkv, mid, hlayer, hfirst, hmid⟩ := layer_ok hp hdim (hblks blk List.mem_cons_self) hxs
    obtain ⟨qs, xs', hrun, hrest, hxs'⟩ := ih (fun b hmem => hblks b (List.mem_cons_of_mem blk hmem)) hmid
    refine ⟨qkv :: qs, xs', ?_, .cons hfirst hrest, hxs'⟩
    rw [List.foldlM_cons, hlayer, ok_bind, hrun]

theorem Trace.count {blks : List (QuantLayer F)} {xs xs' : List (Tensor F)}
    {qs : List (Projections F)} (h : Trace p blks xs qs xs') :
    qs.length = blks.length ∧ xs'.length = xs.length ∧ ∀ qkv ∈ qs, qkv.length = xs.length := by
  induction h with
  | nil xs => exact ⟨rfl, rfl, fun qkv hmem => absurd hmem List.not_mem_nil⟩
  | cons first rest ih =>
    obtain ⟨hqs, hxs', heach⟩ := ih
    refine ⟨by rw [List.length_cons, List.length_cons, hqs], hxs'.trans first.count.2, fun q hmem => ?_⟩
    rcases List.mem_cons.mp hmem with rfl | hmem
    · exact first.count.1
    · exact (heach q hmem).trans first.count.2

/-- One position through the layers, as a step takes it: with the specification's keys and
values of the earlier positions it computes the specification's residual, and its rows. -/
theorem Trace.rows {blks : List (QuantLayer F)} {xs xs' : List (Tensor F)} {qs : List (Projections F)}
    (h : Trace p blks xs qs xs') (i : Nat) (past : Past F) (done : List (QuantLayer F)) {x : Tensor F}
    (hlayers : p.weights.layers = done ++ blks) (hx : xs[i]? = some x)
    (hpast : ∀ (j : Nat) qkv, qs[j]? = some qkv → past (done.length + j) = qkv.past i) :
    ∃ x' log, Causal.rows (p.atPos i) past blks.length done.length x = (.ok x', log) ∧
      xs'[i]? = some x' ∧ log.length = blks.length ∧
      ∀ (j : Nat) qkv, qs[j]? = some qkv → ∃ own, qkv[i]? = some own ∧ log[j]? = some own.2 := by
  induction h generalizing done x with
  | nil xs => exact ⟨x, [], rfl, hx, rfl, fun j qkv hget => by simp at hget⟩
  | @cons blk blks xs mid xs' qkv qs first rest ih =>
    obtain ⟨own, x', hown, hx', hqkv, hblock⟩ := first.each i x hx
    have hhere := hpast 0 qkv rfl
    rw [Nat.add_zero] at hhere
    have hindex : (index p.weights.layers done.length : Res (QuantLayer F)) = .ok blk := by
      rw [hlayers, index_eq_ok, List.getElem?_append_right (Nat.le_refl _), Nat.sub_self,
        List.getElem?_cons_zero]
    -- a block does not look at the position
    have hsame : Causal.block (p.atPos i) blk x own.1 ((past done.length).1 ++ [own.2.1])
        ((past done.length).2 ++ [own.2.2]) = .ok x' := by
      rw [Projections.past_succ hown] at hblock
      rw [hhere]
      exact hblock
    have hout : Causal.layerOut (p.atPos i) past done.length x = (.ok x', [own.2]) := by
      have hrow : Causal.layerRow (p.atPos i) done.length x = .ok (blk, own) := by
        change (index p.weights.layers done.length >>= fun blk => _) = _
        rw [hindex, ok_bind, hqkv]
        rfl
      unfold Causal.layerOut
      rw [hrow]
      dsimp only
      rw [hsame]
    have hdone : (done ++ [blk]).length = done.length + 1 := by
      rw [List.length_append, List.length_singleton]
    obtain ⟨last, log, hrows, hlast, hcount, hlog⟩ := ih (done ++ [blk])
      (by rw [hlayers, List.append_assoc, List.singleton_append]) hx' (by
        intro j q hget
        have hnext := hpast (j + 1) q (by simpa using hget)
        rw [hdone, Nat.add_assoc, Nat.add_comm 1 j]
        exact hnext)
    rw [hdone] at hrows
    refine ⟨last, own.2 :: log, ?_, hlast, by rw [List.length_cons, List.length_cons, hcount],
      fun j q hget => ?_⟩
    · rw [List.length_cons, Causal.rows, hout]
      dsimp only
      rw [hrows]
      rfl
    · cases j with
      | zero =>
        obtain rfl : qkv = q := by simpa using hget
        exact ⟨own, hown, rfl⟩
      | succ j => exact hlog j q (by simpa using hget)

end Trace

/-! ### Prompts that go through -/

section Feed

variable {φ : Type} {forward : Forward φ F}

omit [F32 F] in
/-- Every position returns; `Out` says what. -/
theorem feedFrom_ok (Inv : Nat → φ → Prop) (Out : Nat → Tensor F → Prop) (tokens : List UInt32)
    {token : UInt32} {pos : Nat} {s : φ} (h : Inv pos s)
    (hstep : ∀ (i : Nat) t u, (token :: tokens)[i]? = some t → Inv (pos + i) u →
      (∃ logits, ((forward t (pos + i)).eval u).1 = .ok logits ∧ Out (pos + i) logits) ∧
        Inv (pos + i + 1) ((forward t (pos + i)).eval u).2) :
    ∃ logits, ((feedFrom forward pos token tokens).eval s).1 = .ok logits ∧
      Out (pos + tokens.length) logits := by
  -- Induction on the tokens behind the first; the invariant holds before each call.
  induction tokens generalizing pos token s with
  | nil => exact (hstep 0 token s rfl h).1
  | cons next tokens ih =>
    obtain ⟨⟨logits, hout, -⟩, hinv⟩ := hstep 0 token s rfl h
    rw [Nat.add_zero] at hout hinv
    unfold feedFrom
    rw [eval_bind_ok (Prod.ext hout rfl), List.length_cons, ← Nat.add_assoc, Nat.add_right_comm]
    refine ih hinv fun i t u hget hu => ?_
    have hshift : pos + 1 + i = pos + (i + 1) := by omega
    rw [hshift] at hu ⊢
    exact hstep (i + 1) t u (by simpa using hget) hu

omit [F32 F] in
/-- Every position returns up to one that stops. -/
theorem feedFrom_error (Inv : Nat → φ → Prop) (good : List UInt32) (bad : UInt32) (rest : List UInt32)
    {stop : Stop Error} {token : UInt32} {tokens : List UInt32} {pos : Nat} {s : φ}
    (hsplit : token :: tokens = good ++ bad :: rest) (h : Inv pos s)
    (hstep : ∀ (i : Nat) t u, good[i]? = some t → Inv (pos + i) u →
      (∃ logits, ((forward t (pos + i)).eval u).1 = .ok logits) ∧
        Inv (pos + i + 1) ((forward t (pos + i)).eval u).2)
    (hbad : ∀ u, Inv (pos + good.length) u →
      ((forward bad (pos + good.length)).eval u).1 = .error stop) :
    ((feedFrom forward pos token tokens).eval s).1 = .error stop := by
  -- Induction on the good tokens; the loop stops at the first token that is not good.
  induction good generalizing pos token tokens s with
  | nil =>
    obtain ⟨rfl, rfl⟩ : token = bad ∧ tokens = rest := by simpa using hsplit
    have hstop := hbad s h
    rw [List.length_nil, Nat.add_zero] at hstop
    -- The last token's call is the loop's own last call.
    cases tokens with
    | nil => exact hstop
    | cons next tokens =>
      unfold feedFrom
      rw [eval_bind_error (Prod.ext hstop rfl)]
  | cons first good ih =>
    obtain ⟨rfl, rfl⟩ : token = first ∧ tokens = good ++ bad :: rest := by simpa using hsplit
    obtain ⟨⟨logits, hout⟩, hinv⟩ := hstep 0 token s rfl h
    rw [Nat.add_zero] at hout hinv
    rw [List.length_cons] at hbad
    -- There is a next token, since the bad one is still to come.
    obtain ⟨next, more, hmore⟩ : ∃ next more, good ++ bad :: rest = next :: more := by
      cases good with
      | nil => exact ⟨bad, rest, rfl⟩
      | cons g good => exact ⟨g, good ++ bad :: rest, rfl⟩
    rw [hmore]
    unfold feedFrom
    rw [eval_bind_ok (Prod.ext hout rfl)]
    refine ih hmore.symm hinv (fun i t u hget hu => ?_) (fun u hu => ?_)
    · have hshift : pos + 1 + i = pos + (i + 1) := by omega
      rw [hshift] at hu ⊢
      exact hstep (i + 1) t u (by simpa using hget) hu
    · have hshift : pos + 1 + good.length = pos + (good.length + 1) := by omega
      rw [hshift] at hu ⊢
      exact hbad u hu

end Feed

/-! ### The caches hold the keys and values of the specification -/

section Holding

variable {build : Build} {blake3 : Blake3} {cfg : Config} {w : QuantizedWeights F}
  {headSize kvMul : Nat} {regime : UInt8} {p : Pass F}

/-- After `n` positions. -/
structure Holding (cfg : Config) (headSize : Nat) (regime : UInt8) (qs : List (Projections F)) (n : Nat)
    (s : RunState F) : Prop where
  sized : s.SizedFor cfg headSize
  regime : s.regime = regime
  rows : ∀ (l : Nat) qkv, qs[l]? = some qkv → ∀ (t : Nat) own, t < n → qkv[t]? = some own →
    s.rowAt cfg headSize l t = own.2

omit [F32 F] in
theorem passOf_atPos (h : passOf build blake3 cfg w none 0 regime = .ok p) (pos : Nat) :
    passOf build blake3 cfg w none pos regime = .ok (p.atPos pos) := by
  obtain ⟨kvDim, hkvDim, h⟩ := bind_eq_ok.mp h
  obtain ⟨kvMul, hkvMul, h⟩ := bind_eq_ok.mp h
  obtain ⟨headSize, hheadSize, h⟩ := bind_eq_ok.mp h
  cases h
  unfold passOf
  rw [hkvDim, ok_bind, hkvMul, ok_bind, hheadSize, ok_bind]
  rfl

omit [F32 F] in
/-- The past that a step reads is the specification's. -/
theorem Holding.past_eq {qs : List (Projections F)} {n : Nat} {s : RunState F}
    (h : Holding cfg headSize regime qs n s) {p : Pass F} (hcfg : p.cfg = cfg) (hn : p.pos = n)
    (hkv : p.kvDim = cfg.nKvHeads * headSize) {l : Nat} {qkv : Projections F} (hl : qs[l]? = some qkv)
    (hcount : n ≤ qkv.length) : s.past p l = qkv.past n := by
  subst hcfg
  subst hn
  -- The rows of a cache holding the projections are what the projections say.
  have hrows : ∀ t own, t < p.pos → qkv[t]? = some own →
      row p.kvDim s.keyCache (p.rowIndex l t) = own.2.1 ∧
        row p.kvDim s.valueCache (p.rowIndex l t) = own.2.2 := by
    intro t own ht hget
    have hrow := h.rows l qkv hl t own ht hget
    rw [hkv]
    exact ⟨congrArg Prod.fst hrow, congrArg Prod.snd hrow⟩
  unfold RunState.past Pass.pastRows Projections.past
  refine Prod.ext ?_ ?_
  -- Keys and values alike.
  all_goals
    refine List.ext_getElem? fun t => ?_
    rw [List.getElem?_map, List.getElem?_map, List.getElem?_take]
    by_cases ht : t < p.pos
    · have hget : qkv[t]? = some qkv[t] := List.getElem?_eq_getElem (by omega)
      obtain ⟨hkey, hvalue⟩ := hrows t _ ht hget
      rw [List.getElem?_range ht, if_pos ht, hget]
      simp only [Option.map_some, hkey, hvalue]
    · rw [List.getElem?_eq_none (by rw [List.length_range]; omega), if_neg ht]
      rfl

/-- One position. -/
theorem Holding.step (hcfg : cfg.Grouped headSize kvMul) (hw : w.Sized cfg headSize)
    (hpass : passOf build blake3 cfg w none 0 regime = .ok p) (hdim : 0 < cfg.dim)
    {xs xs' : List (Tensor F)} {qs : List (Projections F)} (htrace : Trace p w.layers xs qs xs')
    (hxs' : ∀ x ∈ xs', x.IsVector cfg.dim) {n : Nat} (hn : n < cfg.seqLen) {s : RunState F}
    (h : Holding cfg headSize regime qs n s) {x : Tensor F} (hx : xs[n]? = some x) {token : UInt32}
    (hembed : Causal.embed p token = .ok x) :
    ∃ x' logits, xs'[n]? = some x' ∧ Causal.logits p x' = .ok logits ∧
      ((VitniTensor.step build blake3 cfg w token n).eval s).1 = .ok logits ∧
      Holding cfg headSize regime qs (n + 1) ((VitniTensor.step build blake3 cfg w token n).eval s).2 := by
  -- What the step does to the caches, in terms of the rows behind position `n`.
  have hatPos := passOf_atPos hpass n
  obtain ⟨hp, hform⟩ := passOf_ok hcfg hpass
  obtain ⟨hout, hwrote, -, -⟩ := step_rows hcfg hn h.sized (h.regime.symm ▸ hatPos) token
  have hcfg' : p.cfg = cfg := by rw [hform]
  have hw' : p.weights = w := by rw [hform]
  have hsize : p.headSize = headSize := by rw [hform]
  have hkv : p.kvDim = p.cfg.nKvHeads * headSize := by rw [hform]
  subst hcfg'
  subst hw'
  subst hsize
  obtain ⟨hcount, -, heach⟩ := htrace.count
  have hlt : n < xs.length := (List.getElem?_eq_some_iff.mp hx).1
  have hlen : ∀ {j : Nat} {qkv : Projections F}, qs[j]? = some qkv → n < qkv.length := by
    intro j qkv hget
    rw [heach qkv (List.mem_of_getElem? hget)]
    exact hlt
  -- Column `n` of the trace: the layers' outputs, and the rows they store.
  obtain ⟨x', log, hrows, hx', hlog, hown⟩ := htrace.rows n (s.past (p.atPos n)) []
    (List.nil_append _).symm hx (by
      intro j qkv hget
      rw [List.length_nil, Nat.zero_add]
      exact h.past_eq (p := p.atPos n) rfl rfl hkv hget (Nat.le_of_lt (hlen hget)))
  obtain ⟨logits, hlogits, -⟩ := logits_ok hdim hw (hxs' x' (List.mem_of_getElem? hx'))
  -- Those are the rows the step computes from its caches.
  have hstep : Causal.stepRows (p.atPos n) (s.past (p.atPos n)) token = (.ok logits, log) := by
    have hall : Causal.rows (p.atPos n) (s.past (p.atPos n)) p.cfg.nLayers 0 x = (.ok x', log) := by
      rw [← hw.layers]
      exact hrows
    have hembed' : Causal.embed (p.atPos n) token = .ok x := hembed
    have hlogits' : Causal.logits (p.atPos n) x' = .ok logits := hlogits
    unfold Causal.stepRows
    rw [hembed']
    dsimp only
    have hcfg : (p.atPos n).cfg = p.cfg := rfl
    rw [hcfg, hall]
    exact Prod.ext hlogits' rfl
  rw [hstep] at hout hwrote
  refine ⟨x', logits, hx', hlogits, hout, hwrote.sized, hwrote.regime.trans h.regime,
    fun l qkv hget t own ht hget' => ?_⟩
  rw [hwrote.rows l t (by omega)]
  -- Row `n` is the one just written, the older ones are held already.
  by_cases hlast : t = n
  · subst hlast
    obtain ⟨own', hown', hlog'⟩ := hown l qkv hget
    rw [hget'] at hown'
    cases hown'
    rw [if_pos rfl, hlog', Option.getD_some]
  · rw [if_neg hlast]
    exact h.rows l qkv hget t own (by omega) hget'

omit [F32 F] in
/-- Nothing is held of positions that were not fed. -/
theorem holding_zero {s : RunState F} (hs : s.SizedFor cfg headSize) (hregime : s.regime = regime)
    (qs : List (Projections F)) : Holding cfg headSize regime qs 0 s :=
  ⟨hs, hregime, fun _ _ _ t _ ht => absurd ht (Nat.not_lt_zero t)⟩

/-- A prompt whose tokens all have an embedding. -/
private theorem feed_good (hcfg : cfg.Grouped headSize kvMul) (hw : w.Sized cfg headSize)
    (hpass : passOf build blake3 cfg w none 0 regime = .ok p) (hdim : 0 < cfg.dim)
    {good : List UInt32} (hcount : good.length ≤ cfg.seqLen) {xs : List (Tensor F)}
    (hgood : good.mapM (Causal.embed p) = .ok xs) :
    ∃ qs xs', w.layers.foldlM (fun xs blk => Causal.layer p blk xs) xs = .ok xs' ∧
      xs'.length = good.length ∧ (∀ x ∈ xs', x.IsVector cfg.dim) ∧
      ∀ (i : Nat) token (s : RunState F), good[i]? = some token → Holding cfg headSize regime qs i s →
        ∃ x' logits, xs'[i]? = some x' ∧ Causal.logits p x' = .ok logits ∧
          ((VitniTensor.step build blake3 cfg w token i).eval s).1 = .ok logits ∧
          Holding cfg headSize regime qs (i + 1)
            ((VitniTensor.step build blake3 cfg w token i).eval s).2 := by
  obtain ⟨hp, hform⟩ := passOf_ok hcfg hpass
  have hcfg' : p.cfg = cfg := by rw [hform]
  have hsize : p.headSize = headSize := by rw [hform]
  -- Every embedded token is a vector of the width.
  obtain ⟨hlength, heach⟩ := mapM_eq_ok hgood
  have hxs : ∀ x ∈ xs, x.IsVector p.cfg.dim := by
    intro x hmem
    obtain ⟨i, hget⟩ := List.getElem?_of_mem hmem
    have hi : i < good.length := by
      obtain ⟨hlt, -⟩ := List.getElem?_eq_some_iff.mp hget
      omega
    obtain ⟨x₁, hget₁, hembed⟩ := heach i good[i] (List.getElem?_eq_getElem hi)
    rw [hget] at hget₁
    cases hget₁
    obtain ⟨row, -, hembed⟩ := bind_eq_ok.mp hembed
    exact vectorTensor_isVector hp.fits hembed
  subst hcfg'
  subst hsize
  -- One pass over the layers gives the trace; each step then follows its own column.
  obtain ⟨qs, xs', hrun, htrace, hxs'⟩ := layers_ok hp hdim hw.each hxs
  refine ⟨qs, xs', hrun, htrace.count.2.1.trans hlength, hxs', fun i token s hget hs => ?_⟩
  obtain ⟨x, hx, hembed⟩ := heach i token hget
  have hi := (List.getElem?_eq_some_iff.mp hget).1
  exact hs.step hcfg hw hpass hdim htrace hxs' (by omega) hx hembed

/-- The first step of a fresh state returns, for a token that has an embedding. -/
theorem step_first_ok (hcfg : cfg.Grouped headSize kvMul) (hw : w.Sized cfg headSize)
    (hpass : passOf build blake3 cfg w none 0 regime = .ok p) (hdim : 0 < cfg.dim) (hseq : 0 < cfg.seqLen)
    {s : RunState F} (hs : s.SizedFor cfg headSize) (hregime : s.regime = regime) {token : UInt32}
    {x : Tensor F} (hembed : Causal.embed p token = .ok x) :
    ∃ logits, ((VitniTensor.step build blake3 cfg w token 0).eval s).1 = .ok logits := by
  have hgood : [token].mapM (Causal.embed p) = .ok [x] := by
    rw [List.mapM_cons, hembed, ok_bind]
    rfl
  have hcount : [token].length ≤ cfg.seqLen := hseq
  obtain ⟨qs, xs', -, -, -, hstep⟩ := feed_good hcfg hw hpass hdim hcount hgood
  obtain ⟨x', logits, -, -, hout, -⟩ := hstep 0 token s rfl (holding_zero hs hregime qs)
  exact ⟨logits, hout⟩

end Holding

/-! ### Models without features -/

section Zero

variable {p : Pass F}

theorem normalized_zero {x : Tensor F} (hx : x.IsVector 0) {ws : List F} (hws : ws.length = 0) :
    Causal.normalized p x ws = panic .divideByZero := by
  obtain ⟨xs, hstorage, -⟩ := hx.data
  unfold Causal.normalized rmsNormSlice
  rw [if_neg (not_not_intro hx.dtype), Tensor.isContiguous_eq, ok_bind]
  simp only [Bool.not_true, Bool.false_eq_true, if_false, hx.dims, List.isEmpty_cons,
    List.getLastD_cons, List.getLastD_nil, hws, ne_eq, not_true_eq_false, hstorage]
  rfl

theorem queryKeyValue_zero {blk : QuantLayer F} {x : Tensor F} (hx : x.IsVector 0)
    (hblk : blk.rmsAttWeight.length = 0) :
    Causal.queryKeyValue p blk x = panic .divideByZero := by
  unfold Causal.queryKeyValue
  rw [normalized_zero hx hblk]
  rfl

theorem logits_zero {x : Tensor F} (hx : x.IsVector 0) (hfinal : p.weights.rmsFinalWeight.length = 0) :
    Causal.logits p x = panic .divideByZero := by
  unfold Causal.logits
  rw [normalized_zero hx hfinal]
  rfl

theorem embed_zero (hdim : p.cfg.dim = 0)
    (hw : p.weights.tokenEmbeddingTable.OfSize p.cfg.dim p.cfg.vocabSize) (token : UInt32) :
    ∃ x, Causal.embed p token = .ok x ∧ x.IsVector 0 := by
  rw [hdim] at hw
  obtain ⟨x, hx, hvec⟩ := @vectorTensor_ok F [] 0 rfl (by decide)
  refine ⟨x, ?_, hvec⟩
  unfold Causal.embed
  rw [hdim, embeddingRow_zero hw, ok_bind, hx]

/-- In either order of evaluation, the first normalization divides by zero. -/
theorem stepRows_zero (hdim : p.cfg.dim = 0) (hw : p.weights.Sized p.cfg p.headSize) (past : Past F)
    (token : UInt32) : (Causal.stepRows p past token).1 = panic .divideByZero := by
  obtain ⟨x, hx, hvec⟩ := embed_zero hdim hw.embedding token
  unfold Causal.stepRows
  rw [hx]
  dsimp only
  -- The first norm divides by the width: it is the final one if there is no layer.
  cases hlayers : p.weights.layers with
  | nil =>
    have hnone : p.cfg.nLayers = 0 := by rw [← hw.layers, hlayers]; rfl
    rw [hnone]
    exact logits_zero hvec (hw.rmsFinal.trans hdim)
  | cons blk blks =>
    have hsome : p.cfg.nLayers = blks.length + 1 := by rw [← hw.layers, hlayers]; rfl
    have hblk : blk.rmsAttWeight.length = 0 := (hw.each blk (by simp [hlayers])).rmsAtt.trans hdim
    have hout : Causal.layerOut p past 0 x = (panic .divideByZero, []) := by
      unfold Causal.layerOut Causal.layerRow
      rw [hlayers, index_of_lt (Nat.succ_pos _), ok_bind]
      simp only [List.getElem_cons_zero, queryKeyValue_zero hvec hblk, error_bind]
    rw [hsome, Causal.rows, hout]
    rfl

theorem transformer_zero (hdim : p.cfg.dim = 0) (hw : p.weights.Sized p.cfg p.headSize)
    (token : UInt32) (tokens : List UInt32) :
    Causal.transformer p (token :: tokens) = panic .divideByZero := by
  obtain ⟨xs, hxs, hcount⟩ := mapM_ok fun t (_ : t ∈ token :: tokens) =>
    (embed_zero hdim hw.embedding t).imp fun _ h => h.1
  have hvec : ∀ (i : Nat) x, xs[i]? = some x → x.IsVector 0 := by
    intro i x hget
    have hi := (List.getElem?_eq_some_iff.mp hget).1
    obtain ⟨x₁, hget₁, hembed⟩ :=
      (mapM_eq_ok hxs).2 i _ (List.getElem?_eq_getElem (show i < (token :: tokens).length by omega))
    obtain ⟨x₂, hembed₂, hvec⟩ := embed_zero hdim hw.embedding ((token :: tokens).get ⟨i, by omega⟩)
    rw [hget] at hget₁
    cases hget₁
    rw [List.get_eq_getElem, hembed] at hembed₂
    cases hembed₂
    exact hvec
  rw [List.length_cons] at hcount
  unfold Causal.transformer
  rw [hxs, ok_bind]
  cases hlayers : p.weights.layers with
  | nil =>
    -- Without layers, the last token's vector reaches the classifier's norm.
    have hget : xs[tokens.length]? = some xs[tokens.length] := List.getElem?_eq_getElem (by omega)
    rw [List.foldlM_nil, pure_bind, List.length_cons, Nat.add_sub_cancel,
      index_of_lt (show tokens.length < xs.length by omega), ok_bind]
    exact logits_zero (hvec _ _ hget) (hw.rmsFinal.trans hdim)
  | cons blk blks =>
    have hblk : blk.rmsAttWeight.length = 0 := (hw.each blk (by simp [hlayers])).rmsAtt.trans hdim
    -- With a layer, its norm of the first vector panics.
    have hget : xs[0]? = some xs[0] := List.getElem?_eq_getElem (by omega)
    have hlayer : Causal.layer p blk xs = panic .divideByZero := by
      unfold Causal.layer
      rw [hcount, collectRange, collectFrom, index_of_lt (show 0 < xs.length by omega), ok_bind,
        queryKeyValue_zero (hvec 0 _ hget) hblk]
      rfl
    rw [List.foldlM_cons, hlayer]
    rfl

end Zero

/-! ### The refinement -/

/-- What a fresh state is. -/
theorem RunState.new_ok {cfg : Config} {headSize kvMul : Nat} (hcfg : cfg.Grouped headSize kvMul)
    {s : RunState F} (h : RunState.new cfg = .ok s) : s.SizedFor cfg headSize ∧ s.regime = 2 := by
  obtain ⟨rows, hrows, h⟩ := bind_eq_ok.mp h
  obtain ⟨kvDim, hkvDim, h⟩ := bind_eq_ok.mp h
  obtain ⟨total, htotal, h⟩ := bind_eq_ok.mp h
  obtain ⟨keys, hkeys, h⟩ := bind_eq_ok.mp h
  obtain ⟨values, hvalues, h⟩ := bind_eq_ok.mp h
  cases h
  obtain ⟨-, rfl⟩ := word_eq_ok.mp hrows
  obtain ⟨-, rfl⟩ := word_eq_ok.mp htotal
  obtain ⟨product, hproduct, hkvDim⟩ := bind_eq_ok.mp hkvDim
  obtain ⟨-, rfl⟩ := word_eq_ok.mp hproduct
  obtain ⟨hheads, rfl⟩ := div_eq_ok.mp hkvDim
  -- The quotient is the width of a row, by the grouping of the heads.
  have hwidth : cfg.dim * cfg.nKvHeads / cfg.nHeads = cfg.nKvHeads * headSize := by
    rw [hcfg.dim, Nat.mul_assoc, Nat.mul_div_cancel_left _ hheads, Nat.mul_comm]
  -- What was allocated has the length it was allocated with.
  have hzeros : ∀ {n : Nat} {xs : List F}, zeroVec n = .ok xs → xs.length = n := by
    intro n xs hxs
    unfold zeroVec at hxs
    split at hxs
    next => cases hxs; exact List.length_replicate
    next => cases hxs
  rw [hwidth] at hkeys hvalues
  exact ⟨⟨hzeros hkeys, hzeros hvalues⟩, rfl⟩

/-- **Incremental decoding.** On a model of the sizes that its configuration says, feeding a
prompt token by token to a fresh state returns at its last token what the causal transformer
computes of the whole prompt. -/
theorem incremental_eq_causal (build : Build) (blake3 : Blake3) {cfg : Config} {w : QuantizedWeights F}
    {headSize kvMul : Nat} (hcfg : cfg.Grouped headSize kvMul) (hw : w.Sized cfg headSize)
    {tokens : List UInt32} (hne : tokens ≠ []) (hcount : tokens.length ≤ cfg.seqLen) {s : RunState F}
    (hnew : RunState.new cfg = .ok s) :
    ((feedPrompt (step build blake3 cfg w) tokens).eval s).1 =
      (passOf build blake3 cfg w none 0 2 >>= fun p => Causal.transformer p tokens) := by
  obtain ⟨hs, hregime⟩ := RunState.new_ok hcfg hnew
  obtain ⟨token, tokens, rfl⟩ := List.exists_cons_of_ne_nil hne
  rw [List.length_cons] at hcount
  rw [feedPrompt_cons]
  cases hpass : passOf build blake3 cfg w none 0 2 with
  -- The header is refused: the first call returns its panic.
  | error stop =>
    refine feedFrom_error (fun n u => n = 0 ∧ u = s) [] token tokens rfl ⟨rfl, rfl⟩
      (fun i t u hget _ => by simp at hget) fun u hu => ?_
    rw [hu.2, List.length_nil, step_eval, hregime, hpass]
  | ok p =>
    rw [ok_bind]
    obtain ⟨hp, hform⟩ := passOf_ok hcfg hpass
    have hcfg' : p.cfg = cfg := by rw [hform]
    have hw' : p.weights = w := by rw [hform]
    have hsize : p.headSize = headSize := by rw [hform]
    subst hcfg'
    subst hw'
    subst hsize
    -- Both sides divide by the width before they do anything else.
    rcases Nat.eq_zero_or_pos p.cfg.dim with hdim | hdim
    · rw [transformer_zero hdim hw]
      refine feedFrom_error (fun n u => n = 0 ∧ u = s) [] token tokens rfl ⟨rfl, rfl⟩
        (fun i t u hget _ => by simp at hget) fun u hu => ?_
      rw [hu.2, List.length_nil, (step_rows hcfg (by omega) hs (hregime.symm ▸ hpass) token).1]
      exact stepRows_zero hdim hw _ token
    · unfold Causal.transformer
      cases hembeds : (token :: tokens).mapM (Causal.embed p) with
      -- Every token has an embedding: the steps run through and the last logits agree.
      | ok xs =>
        obtain ⟨qs, xs', hrun, hlast, hvec, hstep⟩ := feed_good hcfg hw hpass hdim (by simpa using hcount) hembeds
        obtain ⟨logits, hout, x', hx', hlogits⟩ := @feedFrom_ok F (RunState F)
          (step build blake3 p.cfg p.weights) (Holding p.cfg p.headSize 2 qs)
          (fun i logits => ∃ x', xs'[i]? = some x' ∧ Causal.logits p x' = .ok logits) tokens
          token 0 s (holding_zero hs hregime qs) (by
            intro i t u hget hu
            rw [Nat.zero_add] at hu ⊢
            obtain ⟨x', logits, hx', hlogits, hout, hnext⟩ := hstep i t u hget hu
            exact ⟨⟨logits, hout, x', hx', hlogits⟩, hnext⟩)
        rw [Nat.zero_add] at hx'
        rw [hout, ok_bind, hrun, ok_bind, List.length_cons, Nat.add_sub_cancel, index_eq_ok.mpr hx',
          ok_bind, hlogits]
      -- Some token has none: the steps run up to it and return its error.
      | error stop =>
        obtain ⟨good, bad, rest, xs, hsplit, hgood, hbad⟩ := mapM_eq_error hembeds
        have hshort : good.length + 1 + rest.length = tokens.length + 1 := by
          have hlen := congrArg List.length hsplit
          simp only [List.length_cons, List.length_append] at hlen
          omega
        obtain ⟨qs, xs', -, -, -, hstep⟩ := feed_good hcfg hw hpass hdim (by omega) hgood
        refine feedFrom_error (Holding p.cfg p.headSize 2 qs) good bad rest hsplit
          (holding_zero hs hregime qs) (fun i t u hget hu => ?_) fun u hu => ?_
        · rw [Nat.zero_add] at hu ⊢
          obtain ⟨x', logits, -, -, hout, hnext⟩ := hstep i t u hget hu
          exact ⟨⟨logits, hout⟩, hnext⟩
        · rw [Nat.zero_add] at hu ⊢
          rw [(step_rows hcfg (by omega) hu.sized (hu.regime.symm ▸ passOf_atPos hpass _) bad).1]
          have hbad' : Causal.embed (p.atPos good.length) bad = .error stop := hbad
          unfold Causal.stepRows
          rw [hbad']

private theorem zeroMatrix_holds {n inFeat outFeat : Nat} (hn : n = outFeat * inFeat)
    (hsmall : n < 100 ∧ inFeat < 100 ∧ outFeat < 100) : (zeroMatrix n).Holds inFeat outFeat := by
  have hlength : (zeroMatrix n).bytes.length = n * 4 := List.length_replicate
  refine ⟨⟨⟨1, 4, rfl, Nat.mod_one _, ?_⟩, ?_, fun _ => rfl, by omega⟩, fun h => nomatch h⟩
  · rw [hlength, hn, Nat.div_one, Nat.mul_assoc]
  · omega

theorem zeroWeights_sized : zeroWeights.Sized twoHeads 2 := by
  have htable : zeroWeights.tokenEmbeddingTable.Holds twoHeads.dim twoHeads.vocabSize := zeroMatrix_holds rfl (by decide)
  refine ⟨rfl, fun blk hmem => ?_, rfl, htable.toOfSize, fun _ => htable, fun t h => nomatch h⟩
  rw [List.mem_singleton.mp hmem]
  exact ⟨rfl, rfl, zeroMatrix_holds rfl (by decide), zeroMatrix_holds rfl (by decide), zeroMatrix_holds rfl (by decide),
    zeroMatrix_holds rfl (by decide), zeroMatrix_holds rfl (by decide), zeroMatrix_holds rfl (by decide), zeroMatrix_holds rfl (by decide)⟩

theorem incremental_eq_causal_twoHeads :
    ((feedPrompt (step .serial noHash twoHeads zeroWeights) [0, 1]).eval
        ⟨List.replicate 4 ⟨0⟩, List.replicate 4 ⟨0⟩, 2⟩).1 =
      (passOf .serial noHash twoHeads zeroWeights none 0 2 >>= fun p =>
        Causal.transformer p [0, 1]) :=
  @incremental_eq_causal Cost _ .serial noHash twoHeads zeroWeights 2 2 ⟨rfl, rfl, rfl⟩
    zeroWeights_sized [0, 1] (List.cons_ne_nil _ _) (by decide) _ rfl

/-! ### A vocabulary that cannot be decoded -/

/-- No layers, and a vocabulary of `n` tokens. -/
def wideVocabulary (n : Nat) : Config :=
  ⟨32, 0, 0, 1, 1, n, 1, true⟩

def wideTable (n : Nat) : QuantTensor :=
  ⟨[32, UInt64.ofNat n], .q4_0, List.replicate (n * 18) 0, true⟩

def wideWeights (n : Nat) : QuantizedWeights Cost where
  tokenEmbeddingTable := wideTable n
  layers := []
  rmsFinalWeight := List.replicate 32 ⟨0⟩
  wcls := none
  ropeTheta := ⟨0⟩
  rmsEps := ⟨0⟩
  ropeNeox := false

private def widePass (n : Nat) : Pass Cost :=
  ⟨.serial, noHash, wideVocabulary n, wideWeights n, none, 0, 32, 1, 32, 2⟩

theorem wideTable_ofSize {n : Nat} (hn : n * 18 < 2 ^ 63) : (wideTable n).OfSize 32 n := by
  have hlength : (wideTable n).bytes.length = n * 18 := List.length_replicate
  exact ⟨⟨32, 18, rfl, rfl, hlength⟩, by omega, fun h => (nomatch h), by omega, by omega⟩

theorem wideVocabulary_pass (n : Nat) :
    passOf .serial noHash (wideVocabulary n) (wideWeights n) none 0 2 = .ok (widePass n) := by
  have hsizes : (wideVocabulary n).kvDim = .ok 32 ∧ (wideVocabulary n).kvMul = .ok 1 ∧ (wideVocabulary n).headSize = .ok 32 :=
    ⟨Eq.trans (b := (wideVocabulary 1).kvDim) rfl rfl, Eq.trans (b := (wideVocabulary 1).kvMul) rfl rfl,
      Eq.trans (b := (wideVocabulary 1).headSize) rfl rfl⟩
  unfold passOf
  rw [hsizes.1, ok_bind, hsizes.2.1, ok_bind, hsizes.2.2, ok_bind]
  rfl

/-- The first token of a model whose tied table has `2 ^ 61` elements or more. -/
theorem wide_panics {n : Nat} (hlow : 2 ^ 56 ≤ n) (hhigh : n * 18 < 2 ^ 63) :
    ((step .serial noHash (wideVocabulary n) (wideWeights n) 0 0).eval ⟨[], [], 2⟩).1 = panic .capacityOverflow := by
  have hsize := wideTable_ofSize hhigh
  have hfirst : 0 < n := by omega
  have hrow := @embeddingBlocks_eq Cost _ 32 18 n "Q4_0 byte length not a multiple of 18" q4_0Weights _ (by decide)
    -- The row is 32 values, decoded from one block.
    length_q4_0Weights 32 0 rfl (hsize.q4_0 rfl).2 hsize.memory (by decide) hfirst "embedding_row Q4_0: row past end of table"
    "embedding_row Q4_0: dim must be a multiple of 32"
  obtain ⟨x, hx, hvec⟩ := vectorTensor_ok (length_row hfirst (hsize.length_q4_0 (F := Cost) rfl)) (by decide)
  obtain ⟨xb, hxb, hxlen⟩ := normalized_ok (widePass n) (show 0 < 32 by decide) hvec
    (show (widePass n).weights.rmsFinalWeight.length = 32 from List.length_replicate)
  have hpass : passOf .serial noHash (wideVocabulary n) (wideWeights n) none 0 2 = .ok (widePass n) :=
    wideVocabulary_pass n
  have hembed : Causal.embed (widePass n) 0 = .ok x := by
    change (embeddingRow (wideTable n) 0 32 >>= fun row => vectorTensor row 32) = _
    have hlookup : (embeddingRow (wideTable n) 0 32 : Res (List Cost)) = .ok _ := hrow
    rw [hlookup, ok_bind, hx]
  have hlogits : Causal.logits (widePass n) x = panic .capacityOverflow := by
    -- The classifier of 2 ^ 56 rows or more decodes to more bytes than can be allocated.
    unfold Causal.logits Causal.linear
    rw [hxb, ok_bind]
    change (linearDispatch .serial xb (wideTable n) 32 n 2 >>= fun y => vectorTensor y n) = _
    rw [linearQ4_0_large .serial hsize rfl (by omega) hxlen]
    rfl
  have hempty : (⟨[], [], 2⟩ : RunState Cost).SizedFor (wideVocabulary n) 32 :=
    ⟨show 0 = 0 * 1 * (1 * 32) from rfl, show 0 = 0 * 1 * (1 * 32) from rfl⟩
  have hcfg : (wideVocabulary n).Grouped 32 1 := ⟨rfl, rfl, rfl⟩
  rw [(step_rows hcfg (show 0 < 1 by decide) hempty hpass 0).1]
  unfold Causal.stepRows
  rw [hembed]
  exact hlogits

/-- A sized model that decodes more than fits in memory has no logits. -/
theorem incremental_limit :
    ¬∀ (cfg : Config) (w : QuantizedWeights Cost) (headSize kvMul : Nat), cfg.Grouped headSize kvMul → cfg.nLayers = 0 →
      w.layers = [] → w.wcls = none → w.rmsFinalWeight.length = cfg.dim →
      w.tokenEmbeddingTable.OfSize cfg.dim cfg.vocabSize → ∀ (token : UInt32), token.toNat < cfg.vocabSize →
      ∀ s, RunState.new cfg = .ok s → ∃ logits, ((feedPrompt (step .serial noHash cfg w) [token]).eval s).1 = .ok logits := by
  intro hclaim
  -- the number stays a variable, so that nothing is computed
  obtain ⟨n, hn⟩ : ∃ n : Nat, n = 2 ^ 56 := ⟨_, rfl⟩
  have hnew : RunState.new (wideVocabulary n) = .ok (⟨[], [], 2⟩ : RunState Cost) :=
    Eq.trans (b := RunState.new (wideVocabulary 1)) rfl rfl
  obtain ⟨logits, hlogits⟩ := hclaim (wideVocabulary n) (wideWeights n) 32 1 ⟨rfl, rfl, rfl⟩ rfl rfl rfl
    List.length_replicate (wideTable_ofSize (by omega)) 0 (show 0 < n by omega) _ hnew
  rw [feedPrompt_cons] at hlogits
  cases (wide_panics (n := n) (by omega) (by omega)).symm.trans hlogits

end VitniTensor
