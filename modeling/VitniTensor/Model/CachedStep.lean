import VitniTensor.Model.CacheRows

/-!
# A step as rows

A step reads from the caches the rows of earlier positions, and writes one row per layer, at
its own position. `Causal.rows` is that computation without the caches: from the past rows it
yields the outcome and the rows to write.
-/

namespace VitniTensor

open Outcome Exec Rows

variable {F : Type} [F32 F]

/-- The key and the value of a position in a layer. -/
abbrev KeyValue (F : Type) := List F × List F

/-- The keys and values of the earlier positions, by layer. -/
abbrev Past (F : Type) := Nat → List (List F) × List (List F)

namespace Causal

variable (p : Pass F)

/-- The layer's weights, and its query, key and value. -/
def layerRow (layer : Nat) (x : Tensor F) : Res (QuantLayer F × List F × KeyValue F) := do
  let blk ← index p.weights.layers layer
  let qkv ← queryKeyValue p blk x
  pure (blk, qkv)

/-- One layer, with what it writes. -/
def layerOut (past : Past F) (layer : Nat) (x : Tensor F) : Res (Tensor F) × List (KeyValue F) :=
  match layerRow p layer x with
  | .error stop => (.error stop, [])
  | .ok (blk, q, kv) =>
    (block p blk x q ((past layer).1 ++ [kv.1]) ((past layer).2 ++ [kv.2]), [kv])

/-- The layers from `layer` on, with the rows they write. -/
def rows (past : Past F) : (n layer : Nat) → Tensor F → Res (Tensor F) × List (KeyValue F)
  | 0, _, x => (.ok x, [])
  | n + 1, layer, x =>
    match layerOut p past layer x with
    | (.error stop, log) => (.error stop, log)
    | (.ok x, log) => ((rows past n (layer + 1) x).1, log ++ (rows past n (layer + 1) x).2)

/-- A whole step. -/
def stepRows (past : Past F) (token : UInt32) : Res (Tensor F) × List (KeyValue F) :=
  match embed p token with
  | .error stop => (.error stop, [])
  | .ok x => ((rows p past p.cfg.nLayers 0 x).1 >>= logits p, (rows p past p.cfg.nLayers 0 x).2)

end Causal

/-! ### Row writes -/

namespace RunState

/-- Caches of the size that the configuration asks for. -/
structure Fits (p : Pass F) (s : RunState F) : Prop where
  keys : s.keyCache.length = p.cells
  values : s.valueCache.length = p.cells

def writeRow (p : Pass F) (layer : Nat) (kv : KeyValue F) (s : RunState F) : RunState F :=
  { s with
    keyCache := setRow p.kvDim (p.rowIndex layer p.pos) kv.1 s.keyCache
    valueCache := setRow p.kvDim (p.rowIndex layer p.pos) kv.2 s.valueCache }

/-- The rows of the log, from a layer on. -/
def writeRows (p : Pass F) : Nat → List (KeyValue F) → RunState F → RunState F
  | _, [], s => s
  | layer, kv :: log, s => writeRows p (layer + 1) log (s.writeRow p layer kv)

/-- What a step at `p.pos` reads. -/
def past (p : Pass F) (s : RunState F) : Past F :=
  fun layer => (p.pastRows s.keyCache layer p.pos, p.pastRows s.valueCache layer p.pos)

end RunState

/-- A key and a value of the width of a cache row. -/
def KeyValue.IsRow (p : Pass F) (kv : KeyValue F) : Prop :=
  kv.1.length = p.kvDim ∧ kv.2.length = p.kvDim

namespace RunState

variable {p : Pass F} {s : RunState F}

omit [F32 F] in
theorem Fits.writeRow (hs : s.Fits p) {layer : Nat} (hlayer : layer < p.cfg.nLayers)
    (hpos : p.pos < p.cfg.seqLen) (kv : KeyValue F) (hkv : kv.IsRow p) :
    (s.writeRow p layer kv).Fits p := by
  have hr := Pass.rowIndex_lt hlayer hpos
  refine ⟨?_, ?_⟩
  · unfold RunState.writeRow
    dsimp only
    rw [length_setRow hr hs.keys hkv.1, hs.keys]
  · unfold RunState.writeRow
    dsimp only
    rw [length_setRow hr hs.values hkv.2, hs.values]

omit [F32 F] in
/-- Rows are numbered without overlap. -/
theorem rowIndex_inj {layer layer' t t' : Nat} (ht : t < p.cfg.seqLen) (ht' : t' < p.cfg.seqLen) :
    p.rowIndex layer t = p.rowIndex layer' t' ↔ layer = layer' ∧ t = t' := by
  constructor
  · intro h
    unfold Pass.rowIndex at h
    -- Two positions below `seqLen` cannot make up for a difference of layers.
    have hlayer : layer = layer' := by
      have hdiv : ∀ l u, u < p.cfg.seqLen → (l * p.cfg.seqLen + u) / p.cfg.seqLen = l := by
        intro l u hu
        rw [Nat.mul_comm, Nat.mul_add_div (by omega), Nat.div_eq_of_lt hu, Nat.add_zero]
      rw [← hdiv layer t ht, h, hdiv layer' t' ht']
    subst hlayer
    exact ⟨rfl, by omega⟩
  · rintro ⟨rfl, rfl⟩
    rfl

omit [F32 F] in
/-- A written row, and the rows that stay. -/
theorem row_writeRow (hs : s.Fits p) {layer : Nat} (hlayer : layer < p.cfg.nLayers)
    (hpos : p.pos < p.cfg.seqLen) {kv : KeyValue F} (hkv : kv.IsRow p) (layer' t : Nat)
    (ht : t < p.cfg.seqLen) :
    row p.kvDim (s.writeRow p layer kv).keyCache (p.rowIndex layer' t) =
        (if layer' = layer ∧ t = p.pos then kv.1 else row p.kvDim s.keyCache (p.rowIndex layer' t)) ∧
      row p.kvDim (s.writeRow p layer kv).valueCache (p.rowIndex layer' t) =
        (if layer' = layer ∧ t = p.pos then kv.2 else
          row p.kvDim s.valueCache (p.rowIndex layer' t)) := by
  have hr := Pass.rowIndex_lt hlayer hpos
  unfold RunState.writeRow
  dsimp only
  -- The written row itself, or another one, whose index differs.
  by_cases hsame : layer' = layer ∧ t = p.pos
  · obtain ⟨rfl, rfl⟩ := hsame
    rw [if_pos ⟨rfl, rfl⟩, if_pos ⟨rfl, rfl⟩, row_setRow hr hs.keys hkv.1, row_setRow hr hs.values hkv.2]
    exact ⟨rfl, rfl⟩
  · have hne : p.rowIndex layer' t ≠ p.rowIndex layer p.pos :=
      fun h => hsame ((rowIndex_inj ht hpos).mp h)
    rw [if_neg hsame, if_neg hsame, row_setRow_ne hr hs.keys hkv.1 hne,
      row_setRow_ne hr hs.values hkv.2 hne]
    exact ⟨rfl, rfl⟩

omit [F32 F] in
/-- A write at the current position leaves the past alone. -/
theorem past_writeRow (hs : s.Fits p) {layer : Nat} (hlayer : layer < p.cfg.nLayers)
    (hpos : p.pos < p.cfg.seqLen) {kv : KeyValue F} (hkv : kv.IsRow p) :
    (s.writeRow p layer kv).past p = s.past p := by
  have hrows : ∀ layer' t, t ∈ List.range p.pos →
      row p.kvDim (s.writeRow p layer kv).keyCache (p.rowIndex layer' t) =
          row p.kvDim s.keyCache (p.rowIndex layer' t) ∧
        row p.kvDim (s.writeRow p layer kv).valueCache (p.rowIndex layer' t) =
          row p.kvDim s.valueCache (p.rowIndex layer' t) := by
    intro layer' t ht
    have hlt := List.mem_range.mp ht
    obtain ⟨hkeys, hvalues⟩ := row_writeRow hs hlayer hpos hkv layer' t (by omega)
    -- Positions behind this one are not the written row.
    have hne : ¬(layer' = layer ∧ t = p.pos) := by omega
    rw [if_neg hne] at hkeys hvalues
    exact ⟨hkeys, hvalues⟩
  funext layer'
  unfold RunState.past Pass.pastRows
  rw [List.map_congr_left fun t ht => (hrows layer' t ht).1,
    List.map_congr_left fun t ht => (hrows layer' t ht).2]

end RunState

/-! ### One layer -/

/-- A normalization that returned had a nonempty last dim. -/
theorem rmsNormSlice_pos {x y : Tensor F} {ws : List F} {eps : F} (h : rmsNormSlice x ws eps = .ok y) :
    0 < x.shape.dims.getLastD 0 := by
  unfold rmsNormSlice at h
  rw [Tensor.isContiguous_eq, ok_bind] at h
  -- Every check before the division returns an error, so the division was reached.
  simp only [Bool.not_true, Bool.false_eq_true, if_false] at h
  split at h
  next => cases h
  next =>
    split at h
    next => cases h
    next =>
      split at h
      next => cases h
      next =>
        split at h
        next xs hxs =>
          obtain ⟨rows, hrows, -⟩ := bind_eq_ok.mp h
          by_contra hzero
          rw [div, if_pos (Nat.eq_zero_of_not_pos hzero)] at hrows
          cases hrows
        next => cases h

theorem length_addBias (v : List F) (bias : Option (List F)) : (addBias v bias).length = v.length := by
  unfold addBias
  cases bias with
  | none => rfl
  | some b =>
    dsimp only
    rw [List.length_append, List.length_zipWith, List.length_drop]
    omega

/-- A residual: a vector of `dim` numbers. -/
def IsResidual (p : Pass F) (x : Tensor F) : Prop :=
  x.shape.dims = [p.cfg.dim]

theorem add_shape {x y z : Tensor F} (h : x.add y = .ok z) : z.shape = x.shape := by
  obtain ⟨-, -, h⟩ := bind_eq_ok.mp h
  unfold Tensor.applyF32 at h
  rw [Tensor.isContiguous_eq, Tensor.isContiguous_eq, ok_bind, ok_bind] at h
  simp only [Bool.not_true, Bool.or_self, Bool.false_eq_true, if_false] at h
  split at h
  next => cases h
  next =>
    split at h
    next => exact (Tensor.fromF32_eq_ok h).2.1
    next => cases h

section Layer

variable {p : Pass F} {s : RunState F}

omit [F32 F] in
theorem attnQOutDim_eq (hp : p.WellShaped) : attnQOutDim p.cfg = .ok (p.cfg.nHeads * p.headSize) := by
  have hfits := hp.fits
  rw [hp.dim] at hfits
  unfold attnQOutDim
  rw [hp.head, ok_bind, word_of_lt hfits]

/-- Query, key and value are the projections, rotated. -/
theorem queryKeyValue_eq (hp : p.WellShaped) (blk : QuantLayer F) (x : Tensor F) :
    Causal.queryKeyValue p blk x = (projected p blk x >>= fun qkv => do
      let q ← Causal.rotated p p.cfg.nHeads qkv.1
      let k ← Causal.rotated p p.cfg.nKvHeads qkv.2.1
      pure (q, k, qkv.2.2)) := by
  unfold Causal.queryKeyValue projected
  simp only [attnQOutDim_eq hp, ok_bind, bind_assoc, pure_bind]

theorem projected_ok (hp : p.WellShaped) {blk : QuantLayer F} {x : Tensor F} (hx : IsResidual p x)
    {q k v : List F} (h : projected p blk x = .ok (q, k, v)) :
    0 < p.headSize ∧ p.cfg.dim * 4 < 2 ^ 63 ∧ q.length = p.cfg.dim ∧ k.length = p.kvDim ∧ v.length = p.kvDim := by
  obtain ⟨xb, hxb, h⟩ := bind_eq_ok.mp h
  -- Norm, query, key and value, then the biases.
  obtain ⟨outDim, hout, h⟩ := bind_eq_ok.mp h
  obtain ⟨q₀, hq, h⟩ := bind_eq_ok.mp h
  obtain ⟨k₀, hk, h⟩ := bind_eq_ok.mp h
  obtain ⟨v₀, hv, h⟩ := bind_eq_ok.mp h
  cases h
  rw [attnQOutDim_eq hp] at hout
  cases hout
  refine ⟨?_, ?_, ?_, ?_, ?_⟩
  -- The norm divided by the width of its row.
  · obtain ⟨y, hy, -⟩ := bind_eq_ok.mp hxb
    have hdim := rmsNormSlice_pos hy
    rw [hx, List.getLastD_cons, List.getLastD_nil, hp.dim] at hdim
    exact Nat.pos_of_mul_pos_left hdim
  · rw [hp.dim]
    exact linearDispatch_fits hq
  · rw [length_addBias, length_linearDispatch hq, hp.dim]
  · rw [length_addBias, length_linearDispatch hk]
  · rw [length_addBias, length_linearDispatch hv]

omit [F32 F] in
theorem cacheRow_eval (hs : s.Fits p) {layer : Nat} (hlayer : layer < p.cfg.nLayers)
    (hpos : p.pos < p.cfg.seqLen) {k v : List F} (hk : k.length = p.kvDim) (hv : v.length = p.kvDim)
    (o : Observers F) :
    (p.cacheRow layer k v).eval (s, o) = (.ok (), (s.writeRow p layer (k, v), o)) := by
  have hr := Pass.rowIndex_lt hlayer hpos
  unfold Pass.cacheRow
  dsimp only
  rw [Pass.rowOff_eq, eval_bind_ok (eval_state _)]
  dsimp only
  rw [copyInto_setRow hr hs.keys hk, copyInto_setRow hr hs.values hv]
  rfl

theorem rope_eval (hp : p.WellShaped) (hsize : 0 < p.headSize) (hs : s.Fits p) {layer : Nat}
    (hlayer : layer < p.cfg.nLayers) (hpos : p.pos < p.cfg.seqLen) {q k v : List F}
    (hq : q.length = p.cfg.dim) (hk : k.length = p.kvDim) (hv : v.length = p.kvDim) (o : Observers F) :
    ∃ q' k', Causal.rotated p p.cfg.nHeads q = .ok q' ∧ q'.length = p.cfg.dim ∧
      Causal.rotated p p.cfg.nKvHeads k = .ok k' ∧ k'.length = p.kvDim ∧
      (p.rope layer q).eval (s.writeRow p layer (k, v), o) =
        (.ok q', (s.writeRow p layer (k', v), o)) := by
  have hr := Pass.rowIndex_lt hlayer hpos
  have hfits := hs.writeRow hlayer hpos (k, v) ⟨hk, hv⟩
  obtain ⟨q', k', hrotq, hq', hrotk, hk', hboth⟩ := Pass.ropeBoth_eq hp hsize hr hq hfits.keys
  have hrow : row p.kvDim (s.writeRow p layer (k, v)).keyCache (p.rowIndex layer p.pos) = k :=
    row_setRow hr hs.keys hk
  -- Writing the rotated key over the unrotated one leaves one written row.
  have hset : setRow p.kvDim (p.rowIndex layer p.pos) k' (s.writeRow p layer (k, v)).keyCache =
      setRow p.kvDim (p.rowIndex layer p.pos) k' s.keyCache :=
    setRow_setRow hr hs.keys hk hk'
  rw [hrow] at hrotk
  refine ⟨q', k', hrotq, hq', hrotk, hk', ?_⟩
  unfold Pass.rope
  rw [eval_bind_ok (eval_state _)]
  dsimp only
  rw [Pass.rowOff_eq, hboth, hset]
  rfl

omit [F32 F] in
/-- The rows up to the current position are the past and the row just written. -/
theorem pastRows_writeRow (hs : s.Fits p) {layer : Nat} (hlayer : layer < p.cfg.nLayers)
    (hpos : p.pos < p.cfg.seqLen) (kv : KeyValue F) (hkv : kv.IsRow p) :
    p.pastRows (s.writeRow p layer kv).keyCache layer (p.pos + 1) = (s.past p layer).1 ++ [kv.1] ∧
      p.pastRows (s.writeRow p layer kv).valueCache layer (p.pos + 1) = (s.past p layer).2 ++ [kv.2] := by
  have hpast := congrFun (RunState.past_writeRow hs hlayer hpos hkv) layer
  obtain ⟨hkeys, hvalues⟩ :=
    RunState.row_writeRow hs hlayer hpos hkv layer p.pos hpos
  rw [if_pos ⟨rfl, rfl⟩] at hkeys hvalues
  rw [← hpast]
  unfold RunState.past Pass.pastRows
  rw [List.range_succ, List.map_append, List.map_append, List.map_singleton, List.map_singleton, hkeys,
    hvalues]
  exact ⟨rfl, rfl⟩

/-- One layer of a step. -/
theorem layerStep_eval (hp : p.WellShaped) (hplan : p.plan = none) (hs : s.Fits p) {layer : Nat}
    (hlayer : layer < p.cfg.nLayers) (hpos : p.pos < p.cfg.seqLen) {x : Tensor F} (hx : IsResidual p x) :
    (p.layerStep layer x).eval (s, Observers.none) =
        ((Causal.layerOut p (s.past p) layer x).1,
          (s.writeRows p layer (Causal.layerOut p (s.past p) layer x).2, Observers.none)) ∧
      ∀ kv ∈ (Causal.layerOut p (s.past p) layer x).2, kv.IsRow p := by
  unfold Pass.layerStep Causal.layerOut Causal.layerRow
  rw [eval_bind]
  -- A missing layer is an error on both sides, before anything is written.
  cases hblk : (index p.weights.layers layer : Res (QuantLayer F)) with
  | error stop => exact ⟨rfl, fun kv hmem => absurd hmem List.not_mem_nil⟩
  | ok blk =>
    simp only [eval_lift, ok_bind]
    rw [eval_bind, (quiet_project layer blk x).eval, queryKeyValue_eq hp]
    -- So is a failing projection.
    cases hproj : projected p blk x with
    | error stop => exact ⟨rfl, fun kv hmem => absurd hmem List.not_mem_nil⟩
    | ok qkv =>
      -- Key and value are stored and the key is turned: one row, written at once.
      obtain ⟨q, k, v⟩ := qkv
      obtain ⟨hsize, hmemory, hq, hk, hv⟩ := projected_ok hp hx hproj
      obtain ⟨q', k', hrotq, hq', hrotk, hk', hrope⟩ :=
        rope_eval hp hsize hs hlayer hpos hq hk hv Observers.none
      have hfits := hs.writeRow hlayer hpos (k', v) ⟨hk', hv⟩
      obtain ⟨hkeys, hvalues⟩ := pastRows_writeRow hs hlayer hpos (k', v) ⟨hk', hv⟩
      dsimp only
      rw [eval_bind_ok (cacheRow_eval hs hlayer hpos hk hv _), eval_bind_ok hrope,
        eval_bind_ok (eval_state _)]
      dsimp only
      rw [Pass.attend_eq hp hq' hfits.keys hfits.values hlayer hpos hmemory, hkeys, hvalues]
      simp only [ok_bind, hrotq, hrotk]
      -- What follows the attention leaves the caches alone.
      refine ⟨?_, fun kv hmem => ?_⟩
      · exact (Quiet.bind (.lift _) fun heads => quiet_afterHeads hplan layer blk x heads).eval _
      · rw [List.mem_singleton.mp hmem]
        exact ⟨hk', hv⟩

/-- A block returns a residual. -/
theorem block_residual {blk : QuantLayer F} {x x' : Tensor F} {q : List F} {keys values : List (List F)}
    (h : Causal.block p blk x q keys values = .ok x') : x'.shape = x.shape := by
  obtain ⟨heads, -, h⟩ := bind_eq_ok.mp h
  obtain ⟨out, -, h⟩ := bind_eq_ok.mp h
  obtain ⟨out, -, h⟩ := bind_eq_ok.mp h
  obtain ⟨mid, hmid, h⟩ := bind_eq_ok.mp h
  obtain ⟨xb, -, h⟩ := bind_eq_ok.mp h
  obtain ⟨gate, -, h⟩ := bind_eq_ok.mp h
  obtain ⟨up, -, h⟩ := bind_eq_ok.mp h
  obtain ⟨inner, -, h⟩ := bind_eq_ok.mp h
  obtain ⟨down, -, h⟩ := bind_eq_ok.mp h
  obtain ⟨down, -, h⟩ := bind_eq_ok.mp h
  rw [add_shape h, add_shape hmid]

/-- A layer that returned wrote one row, and returned a residual. -/
theorem layerOut_ok {past : Past F} {layer : Nat} {x x' : Tensor F} (hx : IsResidual p x)
    (h : (Causal.layerOut p past layer x).1 = .ok x') :
    IsResidual p x' ∧ ∃ kv, Causal.layerOut p past layer x = (.ok x', [kv]) := by
  unfold Causal.layerOut at h ⊢
  split at h
  next => cases h
  next blk q kv hrow =>
    dsimp only at h ⊢
    rw [h]
    refine ⟨?_, kv, rfl⟩
    unfold IsResidual
    rw [block_residual h]
    exact hx

end Layer

/-! ### All layers -/

section Run

variable {p : Pass F}

theorem layers_eval (hp : p.WellShaped) (hplan : p.plan = none) (hpos : p.pos < p.cfg.seqLen)
    (n layer : Nat) (hlayers : layer + n = p.cfg.nLayers) {s : RunState F} (hs : s.Fits p)
    {x : Tensor F} (hx : IsResidual p x) :
    (forFrom layer n p.layerStep x).eval (s, Observers.none) =
        ((Causal.rows p (s.past p) n layer x).1,
          (s.writeRows p layer (Causal.rows p (s.past p) n layer x).2, Observers.none)) ∧
      ∀ kv ∈ (Causal.rows p (s.past p) n layer x).2, kv.IsRow p := by
  -- Induction on the layers left.
  induction n generalizing layer s x with
  | zero => exact ⟨rfl, fun kv hmem => absurd hmem List.not_mem_nil⟩
  | succ n ih =>
    have hlayer : layer < p.cfg.nLayers := by omega
    obtain ⟨hstep, hrows⟩ := layerStep_eval hp hplan hs hlayer hpos hx
    rw [forFrom, eval_bind, hstep]
    unfold Causal.rows
    -- The layer stopped: its row may be written, the rest is not run.
    cases hout : (Causal.layerOut p (s.past p) layer x).1 with
    | error stop =>
      have hpair : Causal.layerOut p (s.past p) layer x =
          (.error stop, (Causal.layerOut p (s.past p) layer x).2) := by rw [← hout]
      rw [hpair]
      exact ⟨rfl, hrows⟩
    -- The row of this layer is behind no other position, so the past stays the same.
    | ok x' =>
      obtain ⟨hx', kv, hpair⟩ := layerOut_ok hx hout
      rw [hpair] at hrows ⊢
      have hkv := hrows kv List.mem_cons_self
      have hfits := hs.writeRow hlayer hpos kv hkv
      obtain ⟨hrest, hothers⟩ := ih (layer + 1) (by omega) hfits hx'
      rw [RunState.past_writeRow hs hlayer hpos hkv] at hrest hothers
      refine ⟨hrest, fun kv' hmem => ?_⟩
      rcases List.mem_cons.mp hmem with rfl | hmem
      · exact hkv
      · exact hothers kv' hmem

/-- At most one row per layer; all of them when the layers return. -/
theorem length_rows (past : Past F) (n layer : Nat) {x : Tensor F} (hx : IsResidual p x) :
    (Causal.rows p past n layer x).2.length ≤ n ∧
      ∀ x', (Causal.rows p past n layer x).1 = .ok x' →
        (Causal.rows p past n layer x).2.length = n ∧ IsResidual p x' := by
  induction n generalizing layer x with
  | zero =>
    refine ⟨Nat.le_refl 0, fun x' h => ?_⟩
    cases h
    exact ⟨rfl, hx⟩
  | succ n ih =>
    unfold Causal.rows
    -- A layer that stops has written at most one row.
    cases hout : (Causal.layerOut p past layer x).1 with
    | error stop =>
      have hpair : Causal.layerOut p past layer x =
          (.error stop, (Causal.layerOut p past layer x).2) := by rw [← hout]
      rw [hpair]
      dsimp only
      refine ⟨?_, fun x' h => nomatch h⟩
      unfold Causal.layerOut
      split <;> simp
    -- One that returns has written exactly one.
    | ok x' =>
      obtain ⟨hx', kv, hpair⟩ := layerOut_ok hx hout
      rw [hpair]
      obtain ⟨hle, hall⟩ := ih (layer + 1) hx'
      dsimp only
      rw [List.singleton_append, List.length_cons]
      refine ⟨by omega, fun x'' h => ?_⟩
      obtain ⟨hcount, hres⟩ := hall x'' h
      exact ⟨by rw [hcount], hres⟩

theorem embed_residual {token : UInt32} {x : Tensor F} (h : Causal.embed p token = .ok x) :
    IsResidual p x := by
  obtain ⟨row, -, h⟩ := bind_eq_ok.mp h
  obtain ⟨shape, hshape, h⟩ := bind_eq_ok.mp h
  cases hshape
  unfold IsResidual
  rw [(Tensor.fromF32_eq_ok h).2.1]

/-- A whole step, from the rows it reads to the rows it writes. -/
theorem forward_eval (hp : p.WellShaped) (hplan : p.plan = none) (hpos : p.pos < p.cfg.seqLen)
    {s : RunState F} (hs : s.Fits p) (token : UInt32) :
    (p.forward token).eval (s, Observers.none) =
        ((Causal.stepRows p (s.past p) token).1,
          (s.writeRows p 0 (Causal.stepRows p (s.past p) token).2, Observers.none)) ∧
      (∀ kv ∈ (Causal.stepRows p (s.past p) token).2, kv.IsRow p) ∧
      (Causal.stepRows p (s.past p) token).2.length ≤ p.cfg.nLayers ∧
      ∀ logits, (Causal.stepRows p (s.past p) token).1 = .ok logits →
        (Causal.stepRows p (s.past p) token).2.length = p.cfg.nLayers := by
  unfold Pass.forward Causal.stepRows
  rw [eval_bind, (quiet_embed hplan token).eval]
  -- Embedding, layers, classifier; only the layers touch the caches.
  cases hembed : Causal.embed p token with
  | error stop =>
    refine ⟨rfl, fun kv hmem => absurd hmem List.not_mem_nil, Nat.zero_le _, fun logits h => by cases h⟩
  | ok x =>
    have hx := embed_residual hembed
    obtain ⟨hrun, hrows⟩ := layers_eval hp hplan hpos p.cfg.nLayers 0 (Nat.zero_add _) hs hx
    obtain ⟨hle, hall⟩ := length_rows (s.past p) p.cfg.nLayers 0 hx
    dsimp only
    rw [eval_bind, forRange, hrun]
    cases hlast : (Causal.rows p (s.past p) p.cfg.nLayers 0 x).1 with
    | error stop => exact ⟨rfl, hrows, hle, fun logits h => by cases h⟩
    | ok x' =>
      refine ⟨(quiet_logits hplan x').eval _, hrows, hle, fun logits _ => (hall x' hlast).1⟩

end Run

end VitniTensor
