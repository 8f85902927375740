import VitniTensor.Inference.Prefill
import VitniTensor.Model.CachedStep
import VitniTensor.Model.TiedRows

/-!
# The cache frame

A step writes row `pos` of each layer and no other cell, and what it returns and writes depends
on the caches only through the rows of earlier positions.
-/

namespace VitniTensor

open Outcome Exec Rows

variable {F : Type} [F32 F]

/-- `n_heads` query heads of an even size, in groups of `kv_mul` that share a kv head. -/
structure Config.Grouped (cfg : Config) (headSize kvMul : Nat) : Prop where
  dim : cfg.dim = cfg.nHeads * headSize
  group : cfg.nHeads = kvMul * cfg.nKvHeads
  even : headSize % 2 = 0

omit [F32 F] in
/-- The sizes that a step derives are those of the grouping. -/
theorem passOf_ok {build : Build} {blake3 : Blake3} {cfg : Config} {w : QuantizedWeights F}
    {plan : Option (InterventionPlan F)} {pos : Nat} {regime : UInt8} {p : Pass F} {headSize kvMul : Nat}
    (hcfg : cfg.Grouped headSize kvMul)
    (h : passOf build blake3 cfg w plan pos regime = .ok p) :
    p.WellShaped ∧
      p = ⟨build, blake3, cfg, w, plan, pos, cfg.nKvHeads * headSize, kvMul, headSize, regime⟩ := by
  -- The three divisions of the header: none of them has a zero below it.
  obtain ⟨kvDim, hkvDim, h⟩ := bind_eq_ok.mp h
  obtain ⟨kvMul', hkvMul, h⟩ := bind_eq_ok.mp h
  obtain ⟨headSize', hheadSize, h⟩ := bind_eq_ok.mp h
  cases h
  obtain ⟨total, htotal, hkvDim⟩ := bind_eq_ok.mp hkvDim
  obtain ⟨hfits, rfl⟩ := word_eq_ok.mp htotal
  obtain ⟨hheads, rfl⟩ := div_eq_ok.mp hkvDim
  obtain ⟨hkv, hmul⟩ := div_eq_ok.mp hkvMul
  obtain ⟨-, hsize⟩ := div_eq_ok.mp hheadSize
  -- The quotients are the ones the configuration names, by its grouping.
  have hsize' : headSize' = headSize := by
    rw [← hsize, hcfg.dim, Nat.mul_div_cancel_left _ hheads]
  have hmul' : kvMul' = kvMul := by
    rw [← hmul, hcfg.group, Nat.mul_div_cancel _ hkv]
  have hkvDim' : cfg.dim * cfg.nKvHeads / cfg.nHeads = cfg.nKvHeads * headSize := by
    rw [hcfg.dim, Nat.mul_assoc, Nat.mul_div_cancel_left _ hheads, Nat.mul_comm]
  have heven := hcfg.even
  subst hsize'
  subst hmul'
  rw [hkvDim']
  refine ⟨⟨hcfg.dim, rfl, hcfg.group, ?_, ?_, hheadSize, ?_⟩, rfl⟩
  · dsimp only
    omega
  · exact Nat.pos_of_mul_pos_right (by rw [← hcfg.group]; exact hheads)
  · exact Nat.lt_of_le_of_lt (Nat.le_mul_of_pos_right _ hkv) hfits

namespace RunState

/-- Caches of `[n_layers, seq_len, n_kv_heads * head_size]`. -/
structure SizedFor (cfg : Config) (headSize : Nat) (s : RunState F) : Prop where
  keys : s.keyCache.length = cfg.nLayers * cfg.seqLen * (cfg.nKvHeads * headSize)
  values : s.valueCache.length = cfg.nLayers * cfg.seqLen * (cfg.nKvHeads * headSize)

/-- The key and the value of position `t` in a layer. -/
def rowAt (cfg : Config) (headSize : Nat) (s : RunState F) (layer t : Nat) : KeyValue F :=
  (row (cfg.nKvHeads * headSize) s.keyCache (layer * cfg.seqLen + t),
    row (cfg.nKvHeads * headSize) s.valueCache (layer * cfg.seqLen + t))

variable {p : Pass F}

omit [F32 F] in
theorem regime_writeRows (log : List (KeyValue F)) (layer : Nat) (s : RunState F) :
    (s.writeRows p layer log).regime = s.regime := by
  induction log generalizing layer s with
  | nil => rfl
  | cons kv log ih => exact ih (layer + 1) (s.writeRow p layer kv)

omit [F32 F] in
/-- What the rows of a log leave in the caches. -/
theorem rows_writeRows (hpos : p.pos < p.cfg.seqLen) (log : List (KeyValue F))
    (hlog : ∀ kv ∈ log, kv.IsRow p) (layer : Nat) (hlayers : layer + log.length ≤ p.cfg.nLayers)
    {s : RunState F} (hs : s.Fits p) :
    (s.writeRows p layer log).Fits p ∧ ∀ layer' t, t < p.cfg.seqLen →
      (row p.kvDim (s.writeRows p layer log).keyCache (p.rowIndex layer' t),
          row p.kvDim (s.writeRows p layer log).valueCache (p.rowIndex layer' t)) =
        if layer ≤ layer' ∧ t = p.pos then (log[layer' - layer]?).getD
          (row p.kvDim s.keyCache (p.rowIndex layer' t), row p.kvDim s.valueCache (p.rowIndex layer' t))
        else
          (row p.kvDim s.keyCache (p.rowIndex layer' t), row p.kvDim s.valueCache (p.rowIndex layer' t)) := by
  -- Over the layers still to come; the row of the first one is written before the rest.
  induction log generalizing layer s with
  | nil => exact ⟨hs, fun layer' t _ => by simp [writeRows]⟩
  | cons kv log ih =>
    rw [List.length_cons] at hlayers
    have hlayer : layer < p.cfg.nLayers := by omega
    have hkv := hlog kv List.mem_cons_self
    obtain ⟨hfits, hrows⟩ := ih (fun kv' hmem => hlog kv' (List.mem_cons_of_mem kv hmem)) (layer + 1)
      (by omega) (hs.writeRow hlayer hpos kv hkv)
    refine ⟨hfits, fun layer' t ht => ?_⟩
    obtain ⟨hkeys, hvalues⟩ := row_writeRow hs hlayer hpos hkv layer' t ht
    have hrest := hrows layer' t ht
    rw [hkeys, hvalues] at hrest
    refine hrest.trans ?_
    -- The row just written, another row written later, or one the log does not reach.
    by_cases hhere : layer' = layer ∧ t = p.pos
    · obtain ⟨rfl, rfl⟩ := hhere
      have hout : ¬(layer' + 1 ≤ layer' ∧ p.pos = p.pos) := by omega
      rw [if_neg hout, if_pos ⟨rfl, rfl⟩, if_pos ⟨rfl, rfl⟩, if_pos ⟨Nat.le_refl _, rfl⟩, Nat.sub_self,
        List.getElem?_cons_zero, Option.getD_some]
    · rw [if_neg hhere, if_neg hhere]
      by_cases hlater : layer + 1 ≤ layer' ∧ t = p.pos
      · have hin : layer ≤ layer' ∧ t = p.pos := by omega
        have hnext : layer' - layer = layer' - (layer + 1) + 1 := by omega
        rw [if_pos hlater, if_pos hin, hnext, List.getElem?_cons_succ]
      · have hout : ¬(layer ≤ layer' ∧ t = p.pos) := by omega
        rw [if_neg hlater, if_neg hout]

end RunState

/-! ### Two steps side by side -/

section Step

variable {build : Build} {blake3 : Blake3} {cfg : Config} {w : QuantizedWeights F} {headSize kvMul : Nat}
  {s s' : RunState F}

/-- `t` is `s` with the rows of the log at position `pos`, the first layers' ones. -/
structure Wrote (cfg : Config) (headSize pos : Nat) (log : List (KeyValue F)) (s t : RunState F) : Prop where
  sized : t.SizedFor cfg headSize
  regime : t.regime = s.regime
  rows : ∀ layer u, u < cfg.seqLen → t.rowAt cfg headSize layer u =
    if u = pos then (log[layer]?).getD (s.rowAt cfg headSize layer u) else s.rowAt cfg headSize layer u

/-- Equal numbers of cells, and equal rows at the positions before `pos`. -/
structure SamePast (cfg : Config) (headSize pos : Nat) (s s' : RunState F) : Prop where
  left : s.SizedFor cfg headSize
  right : s'.SizedFor cfg headSize
  regime : s.regime = s'.regime
  rows : ∀ layer t, layer < cfg.nLayers → t < pos →
    s.rowAt cfg headSize layer t = s'.rowAt cfg headSize layer t

omit [F32 F] in
/-- Past rows that agree are all that a step reads. -/
theorem SamePast.past_eq {p : Pass F} (hkv : p.kvDim = p.cfg.nKvHeads * headSize)
    (h : SamePast p.cfg headSize p.pos s s') : s.past p = s'.past p := by
  have hrows : ∀ layer t, t ∈ List.range p.pos →
      row p.kvDim s.keyCache (p.rowIndex layer t) = row p.kvDim s'.keyCache (p.rowIndex layer t) ∧
        row p.kvDim s.valueCache (p.rowIndex layer t) =
          row p.kvDim s'.valueCache (p.rowIndex layer t) := by
    intro layer t ht
    rw [hkv]
    by_cases hlayer : layer < p.cfg.nLayers
    · have hsame := h.rows layer t hlayer (List.mem_range.mp ht)
      exact ⟨congrArg Prod.fst hsame, congrArg Prod.snd hsame⟩
    · -- past the last layer there are no cells
      have hend : p.cfg.nLayers * p.cfg.seqLen ≤ p.rowIndex layer t :=
        Nat.le_trans (Nat.mul_le_mul_right _ (Nat.le_of_not_lt hlayer)) (Nat.le_add_right _ _)
      rw [row_eq_nil hend h.left.keys, row_eq_nil hend h.right.keys, row_eq_nil hend h.left.values,
        row_eq_nil hend h.right.values]
      exact ⟨rfl, rfl⟩
  funext layer
  unfold RunState.past Pass.pastRows
  rw [List.map_congr_left fun t ht => (hrows layer t ht).1,
    List.map_congr_left fun t ht => (hrows layer t ht).2]

theorem step_eval (token : UInt32) (pos : Nat) (s : RunState F) :
    (VitniTensor.step build blake3 cfg w token pos).eval s =
      match passOf build blake3 cfg w none pos s.regime with
      | .error stop => (.error stop, s)
      | .ok p => (((p.forward token).eval (s, Observers.none)).1,
          ((p.forward token).eval (s, Observers.none)).2.1) := by
  change (((stepWithRecorders build blake3 cfg w none token pos).eval (s, Observers.none)).1,
    ((stepWithRecorders build blake3 cfg w none token pos).eval (s, Observers.none)).2.1) = _
  unfold stepWithRecorders
  rw [eval_bind_ok (eval_state _)]
  dsimp only
  rw [eval_bind]
  cases passOf build blake3 cfg w none pos s.regime <;> rfl

theorem step_eval_ok {pos : Nat} {p : Pass F} (hpass : passOf build blake3 cfg w none pos s.regime = .ok p)
    (token : UInt32) :
    (VitniTensor.step build blake3 cfg w token pos).eval s =
      (((p.forward token).eval (s, Observers.none)).1, ((p.forward token).eval (s, Observers.none)).2.1) := by
  rw [step_eval, hpass]

/-- A step is the rows that it computes from the past, and writes. -/
theorem step_rows (hcfg : cfg.Grouped headSize kvMul) {pos : Nat} (hpos : pos < cfg.seqLen)
    (hs : s.SizedFor cfg headSize) {p : Pass F}
    (hpass : passOf build blake3 cfg w none pos s.regime = .ok p) (token : UInt32) :
    ((VitniTensor.step build blake3 cfg w token pos).eval s).1 =
        (Causal.stepRows p (s.past p) token).1 ∧
      Wrote cfg headSize pos (Causal.stepRows p (s.past p) token).2 s
        ((VitniTensor.step build blake3 cfg w token pos).eval s).2 ∧
      (Causal.stepRows p (s.past p) token).2.length ≤ cfg.nLayers ∧
      ∀ logits, (Causal.stepRows p (s.past p) token).1 = .ok logits →
        (Causal.stepRows p (s.past p) token).2.length = cfg.nLayers := by
  obtain ⟨hp, hform⟩ := passOf_ok hcfg hpass
  have hcfg' : p.cfg = cfg := by rw [hform]
  have hpos' : p.pos = pos := by rw [hform]
  have hkv : p.kvDim = p.cfg.nKvHeads * headSize := by rw [hform]
  have hplan : p.plan = none := by rw [hform]
  subst hcfg'
  subst hpos'
  have hfits : s.Fits p := ⟨by rw [hs.keys, Pass.cells, hkv], by rw [hs.values, Pass.cells, hkv]⟩
  obtain ⟨heval, hrows, hcount, hall⟩ := forward_eval hp hplan hpos hfits token
  -- The pass writes the rows of its log, from layer 0 on, and nothing else of the state.
  obtain ⟨hfits', hleft⟩ := RunState.rows_writeRows hpos _ hrows 0 (by omega) hfits
  rw [step_eval_ok hpass, heval]
  refine ⟨rfl, ⟨⟨?_, ?_⟩, RunState.regime_writeRows _ _ _, fun layer t ht => ?_⟩, hcount, hall⟩
  · rw [hfits'.keys, Pass.cells, hkv]
  · rw [hfits'.values, Pass.cells, hkv]
  · have hrow := hleft layer t ht
    simp only [Nat.zero_le, true_and, Nat.sub_zero] at hrow
    rw [hkv] at hrow
    exact hrow

/-- From states with the same past, a step returns the same and writes the same rows. -/
theorem step_samePast (hcfg : cfg.Grouped headSize kvMul) {pos : Nat} (hpos : pos < cfg.seqLen)
    (h : SamePast cfg headSize pos s s') (token : UInt32) :
    ((step build blake3 cfg w token pos).eval s).1 = ((step build blake3 cfg w token pos).eval s').1 ∧
      ∃ log : List (KeyValue F), log.length ≤ cfg.nLayers ∧
        (∀ logits, ((step build blake3 cfg w token pos).eval s).1 = .ok logits →
          log.length = cfg.nLayers) ∧
        Wrote cfg headSize pos log s ((step build blake3 cfg w token pos).eval s).2 ∧
        Wrote cfg headSize pos log s' ((step build blake3 cfg w token pos).eval s').2 := by
  cases hpass : passOf build blake3 cfg w none pos s.regime with
  -- A refused header returns before the caches are touched.
  | error stop =>
    rw [step_eval, step_eval, ← h.regime, hpass]
    refine ⟨rfl, [], Nat.zero_le _, fun logits h => (nomatch h), ⟨h.left, rfl, fun layer u _ => ?_⟩,
      ⟨h.right, rfl, fun layer u _ => ?_⟩⟩
    · simp
    · simp
  -- Both states give the same rows behind them, hence the same log and the same outcome.
  | ok p =>
    obtain ⟨hout, hwrote, hcount, hall⟩ := step_rows hcfg hpos h.left hpass token
    obtain ⟨hout', hwrote', -⟩ := step_rows hcfg hpos h.right (h.regime ▸ hpass) token
    obtain ⟨-, rfl⟩ := passOf_ok hcfg hpass
    rw [← h.past_eq rfl] at hout' hwrote'
    refine ⟨hout.trans hout'.symm, _, hcount, fun logits hlogits => ?_, hwrote, hwrote'⟩
    exact hall logits (hout.symm.trans hlogits)

/-- A step that returned moves on: the states agree on one more position. -/
theorem SamePast.step (hcfg : cfg.Grouped headSize kvMul) {pos : Nat} (hpos : pos < cfg.seqLen)
    (h : SamePast cfg headSize pos s s') {token : UInt32} {logits : Tensor F}
    (hout : ((VitniTensor.step build blake3 cfg w token pos).eval s).1 = .ok logits) :
    SamePast cfg headSize (pos + 1) ((VitniTensor.step build blake3 cfg w token pos).eval s).2
      ((VitniTensor.step build blake3 cfg w token pos).eval s').2 := by
  obtain ⟨-, log, -, hall, hwrote, hwrote'⟩ :=
    @step_samePast F _ build blake3 cfg w headSize kvMul s s' hcfg pos hpos h token
  have hcount := hall logits hout
  refine ⟨hwrote.sized, hwrote'.sized, ?_, fun layer u hlayer hu => ?_⟩
  · rw [hwrote.regime, hwrote'.regime, h.regime]
  · rw [hwrote.rows layer u (by omega), hwrote'.rows layer u (by omega)]
    -- Row `pos` was written by this step in both states; the older rows were equal before.
    by_cases hlast : u = pos
    · rw [if_pos hlast, if_pos hlast, List.getElem?_eq_getElem (by omega)]
      rfl
    · rw [if_neg hlast, if_neg hlast]
      exact h.rows layer u hlayer (by omega)

end Step

/-! ### Prompts -/

section Feed

variable {φ : Type} {forward : Forward φ F}

/-- A token at position `pos`, then the others; the last logits are the result. -/
def feedFrom (forward : Forward φ F) (pos : Nat) (token : UInt32) : List UInt32 → Exec φ Error (Tensor F)
  | [] => forward token pos
  | next :: tokens => do
    let _ ← forward token pos
    feedFrom forward (pos + 1) next tokens

omit [F32 F] in
theorem feedPrompt_cons (token : UInt32) (tokens : List UInt32) :
    feedPrompt forward (token :: tokens) = feedFrom forward 0 token tokens := by
  -- the loop reads the prompt by index; `done` is what it has passed
  have hloop : ∀ (rest done : List UInt32) (token : UInt32),
      (forward token done.length >>= forFrom (done.length + 1) rest.length fun pos (_ : Tensor F) => do
        let token ← lift (index (done ++ token :: rest) pos)
        forward token pos) = feedFrom forward done.length token rest := by
    intro rest
    induction rest with
    | nil => exact fun done token => bind_pure _
    | cons next rest ih =>
      intro done token
      have hnext : (index (done ++ token :: next :: rest) (done.length + 1) : Res UInt32) = .ok next := by
        rw [index_eq_ok, List.getElem?_append_right (Nat.le_add_right _ _), Nat.add_sub_cancel_left]
        rfl
      have hshift := ih (done ++ [token]) next
      simp only [List.length_append, List.length_singleton, List.append_assoc,
        List.singleton_append] at hshift
      unfold feedFrom
      rw [← hshift]
      congr
      funext logits
      rw [List.length_cons, forFrom, hnext, lift_ok, pure_bind]
  unfold feedPrompt
  have hfirst : (index (token :: tokens) 0 : Res UInt32) = .ok token := rfl
  rw [hfirst, lift_ok, pure_bind, List.length_cons, Nat.add_sub_cancel]
  exact hloop tokens [] token

omit [F32 F] in
/-- Two runs of a forward function that keep a relation from position to position return the
same logits. -/
theorem feedFrom_congr (Rel : Nat → φ → φ → Prop) {bound : Nat}
    (hstep : ∀ token pos s s', pos < bound → Rel pos s s' →
      ((forward token pos).eval s).1 = ((forward token pos).eval s').1 ∧
        ∀ logits, ((forward token pos).eval s).1 = .ok logits →
          Rel (pos + 1) ((forward token pos).eval s).2 ((forward token pos).eval s').2)
    (tokens : List UInt32) (token : UInt32) {pos : Nat} (hcount : pos + tokens.length < bound)
    {s s' : φ} (h : Rel pos s s') :
    ((feedFrom forward pos token tokens).eval s).1 = ((feedFrom forward pos token tokens).eval s').1 := by
  -- Induction on the tokens; related states stay related as long as the step returns.
  induction tokens generalizing pos token s s' with
  | nil => exact (hstep token pos s s' hcount h).1
  | cons next tokens ih =>
    rw [List.length_cons] at hcount
    obtain ⟨hsame, hnext⟩ := hstep token pos s s' (by omega) h
    unfold feedFrom
    rw [eval_bind, eval_bind]
    cases hrun : (forward token pos).eval s with
    | mk out t =>
      cases hrun' : (forward token pos).eval s' with
      | mk out' t' =>
        rw [hrun, hrun'] at hsame hnext
        dsimp only at hsame hnext
        subst hsame
        cases out with
        | error stop => rfl
        | ok logits => exact ih next (by omega) (hnext logits rfl)

end Feed

/-! ### The frame -/

section Frame

variable (build : Build) (blake3 : Blake3) {cfg : Config} (w : QuantizedWeights F) {headSize kvMul : Nat}

theorem feedPrompt_samePast (hcfg : cfg.Grouped headSize kvMul) {tokens : List UInt32}
    (hcount : tokens.length ≤ cfg.seqLen) {s s' : RunState F} (h : SamePast cfg headSize 0 s s') :
    ((feedPrompt (step build blake3 cfg w) tokens).eval s).1 =
      ((feedPrompt (step build blake3 cfg w) tokens).eval s').1 := by
  cases tokens with
  | nil => rfl
  | cons token tokens =>
    rw [feedPrompt_cons]
    exact feedFrom_congr (SamePast cfg headSize)
      (fun token pos s s' hpos h => ⟨(step_samePast hcfg hpos h token).1, fun logits hout =>
        h.step hcfg hpos hout⟩) tokens token (by rw [List.length_cons] at hcount; omega) h

/-- **The cache frame.** A step writes no row but row `pos` of each layer. From states that
agree on the rows of earlier positions (and run under one regime) it returns the same and
writes the same rows. So the logits of a prompt do not depend on what the caches held. -/
theorem kv_cache_frame (hcfg : cfg.Grouped headSize kvMul) :
    (∀ (token : UInt32) (pos : Nat) (s : RunState F), pos < cfg.seqLen → s.SizedFor cfg headSize →
      ((step build blake3 cfg w token pos).eval s).2.SizedFor cfg headSize ∧
        ∀ layer t, layer < cfg.nLayers → t < cfg.seqLen → t ≠ pos →
          ((step build blake3 cfg w token pos).eval s).2.rowAt cfg headSize layer t =
            s.rowAt cfg headSize layer t) ∧
    (∀ (token : UInt32) (pos : Nat) (s s' : RunState F), pos < cfg.seqLen →
      SamePast cfg headSize pos s s' →
      ((step build blake3 cfg w token pos).eval s).1 = ((step build blake3 cfg w token pos).eval s').1 ∧
        ∃ log : List (KeyValue F), log.length ≤ cfg.nLayers ∧
          (∀ logits, ((step build blake3 cfg w token pos).eval s).1 = .ok logits →
            log.length = cfg.nLayers) ∧
          Wrote cfg headSize pos log s ((step build blake3 cfg w token pos).eval s).2 ∧
          Wrote cfg headSize pos log s' ((step build blake3 cfg w token pos).eval s').2) ∧
    ∀ (tokens : List UInt32) (s s' : RunState F), tokens.length ≤ cfg.seqLen →
      s.SizedFor cfg headSize → s'.SizedFor cfg headSize → s.regime = s'.regime →
      ((feedPrompt (step build blake3 cfg w) tokens).eval s).1 =
        ((feedPrompt (step build blake3 cfg w) tokens).eval s').1 := by
  refine ⟨fun token pos s hpos hs => ?_, fun token pos s s' hpos h => step_samePast hcfg hpos h token,
    fun tokens s s' hcount hs hs' hregime => ?_⟩
  -- The frame property of one step is the second part at `s' = s`.
  · have hself : SamePast cfg headSize pos s s := ⟨hs, hs, rfl, fun _ _ _ _ => rfl⟩
    obtain ⟨-, log, -, -, hwrote, -⟩ :=
      @step_samePast F _ build blake3 cfg w headSize kvMul s s hcfg pos hpos hself token
    refine ⟨hwrote.sized, fun layer t _ ht hne => ?_⟩
    rw [hwrote.rows layer t ht, if_neg hne]
  -- At position 0 there is no row to agree on: any two caches are related.
  · exact feedPrompt_samePast build blake3 w hcfg hcount
      ⟨hs, hs', hregime, fun _ t _ ht => absurd ht (Nat.not_lt_zero t)⟩

end Frame

/-- One layer of two heads of size 2, that share a kv head. -/
def twoHeads : Config :=
  ⟨4, 2, 1, 2, 1, 2, 2, true⟩

def zeroMatrix (n : Nat) : QuantTensor :=
  ⟨[UInt64.ofNat n], .f32, List.replicate (n * 4) 0, true⟩

def zeroWeights : QuantizedWeights Cost where
  tokenEmbeddingTable := zeroMatrix 8
  layers := [⟨List.replicate 4 ⟨0⟩, zeroMatrix 16, zeroMatrix 8, zeroMatrix 8, zeroMatrix 16,
    List.replicate 4 ⟨0⟩, zeroMatrix 8, zeroMatrix 8, zeroMatrix 8, none, none, none⟩]
  rmsFinalWeight := List.replicate 4 ⟨0⟩
  wcls := none
  ropeTheta := ⟨0⟩
  rmsEps := ⟨0⟩
  ropeNeox := false

/-- A hash function for runs that do not hash. -/
def noHash : Blake3 :=
  fun _ => Vector.replicate 32 0

theorem kv_cache_frame_stale :
    ((feedPrompt (step .serial noHash twoHeads zeroWeights) [0, 1]).eval
        ⟨List.replicate 4 ⟨7⟩, List.replicate 4 ⟨9⟩, 2⟩).1 =
      ((feedPrompt (step .serial noHash twoHeads zeroWeights) [0, 1]).eval
        ⟨List.replicate 4 ⟨0⟩, List.replicate 4 ⟨0⟩, 2⟩).1 :=
  (@kv_cache_frame Cost _ .serial noHash twoHeads zeroWeights 2 2 ⟨rfl, rfl, rfl⟩).2.2
    [0, 1] _ _ (by decide) ⟨rfl, rfl⟩ ⟨rfl, rfl⟩ rfl

/-- No layers, and a head of one Q4_K row. -/
def bareHead : Config :=
  ⟨256, 0, 0, 1, 1, 1, 1, false⟩

def bareHeadWeights : QuantizedWeights Cost where
  tokenEmbeddingTable := zeroMatrix 256
  layers := []
  rmsFinalWeight := List.replicate 256 ⟨0⟩
  wcls := some ⟨[256, 1], .q4_k, List.replicate 144 0, true⟩
  ropeTheta := ⟨0⟩
  rmsEps := ⟨0⟩
  ropeNeox := false

section BareHead

/-- The pass at position 0 in a regime. -/
private def barePass (regime : UInt8) : Pass Cost :=
  ⟨.serial, noHash, bareHead, bareHeadWeights, none, 0, 256, 1, 256, regime⟩

private theorem bareEmbedding_holds : (zeroMatrix 256).Holds 256 1 where
  exact := ⟨1, 4, rfl, rfl, List.length_replicate⟩
  memory := lt_of_eq_of_lt List.length_replicate (by decide)
  aligned := fun _ => rfl
  features := ⟨by decide, by decide⟩
  decodes := fun h => nomatch h

private theorem bareRow_holds {w : List UInt8} (hw : w.length = 144) :
    (⟨[256, 1], .q4_k, w, true⟩ : QuantTensor).Holds 256 1 where
  exact := ⟨256, 144, rfl, rfl, hw⟩
  memory := lt_of_eq_of_lt hw (by decide)
  aligned := fun h => nomatch h
  features := ⟨by decide, by decide⟩
  decodes := fun h => nomatch h

/-- The tree of the eight lanes alone adds seven times. -/
private theorem one_lt_adds_tree (a b c d e f g h : Cost) :
    1 < (PairTree.tree F32.add F32.zero [a, b, c, d, e, f, g, h]).adds := by
  change 1 < (a.adds + b.adds + 1 + (c.adds + d.adds + 1) + 1) + (e.adds + f.adds + 1 + (g.adds + h.adds + 1) + 1) + 1
  omega

private theorem one_lt_adds_canonical (v : Nat → Cost) : 1 < (canonicalValue v 256).adds := by
  have hone : (256 + canonChunk - 1) / canonChunk = 1 := by decide
  unfold canonicalValue
  rw [hone, List.range_one, List.map_singleton, PairTree.tree_singleton]
  unfold chunkSum
  exact one_lt_adds_tree _ _ _ _ _ _ _ _

private theorem barePass_row {x : List Cost} {w : List UInt8} (hx : x.length = 256) (hw : w.length = 144) :
    ∃ v : Cost, linearDispatch .serial x ⟨[256, 1], .q4_k, w, true⟩ 256 1 2 = .ok [v] ∧ 1 < v.adds := by
  have hreads := (bareRow_holds hw).reads (F := Cost)
  generalize QuantTensor.table (F := Cost) _ = table at hreads
  have hlinear := hreads.linear (fun h => nomatch h) (fun h => nomatch h) .serial x 2 (by decide) hx
  have hrow : (row 256 table 0).length = 256 := length_row Nat.one_pos hreads.length
  refine ⟨dotValue x (row 256 table 0) 256, hlinear, ?_⟩
  unfold dotValue
  rw [canonicalDot_value (Nat.le_of_eq hx.symm) (Nat.le_of_eq hrow.symm)]
  exact one_lt_adds_canonical _

/-- No float of `Cost` lies below another, so no block has a scale. -/
private theorem amaxOf_cost (x : List Cost) : amaxOf x = ⟨0⟩ := by
  have hstep : ∀ a : Cost, x.foldl (fun amax v =>
      let a := if F32.lt v F32.zero then F32.neg v else v
      if F32.lt amax a then a else amax) a = a := by
    induction x with
    | nil => exact fun a => rfl
    | cons v x ih => exact fun a => ih a
  exact hstep F32.zero

/-- An integer dot adds nothing in floats. -/
private theorem dotQ4k_cost {w : Vector UInt8 144} {x : List Cost} {xq : Q8Block Cost} {n : Nat} {v : Cost}
    (hxq : quantizeBlockQ8 x = .ok xq) (hdot : dotQ4kQ8Block w xq n = .ok v) : v.adds = 0 := by
  -- Zeros quantize to a zero scale, whose cost is nothing.
  have hd : xq.d = ⟨0⟩ := by
    unfold quantizeBlockQ8 at hxq
    split at hxq
    · cases hxq
    · obtain ⟨codes, -, hxq⟩ := bind_eq_ok.mp hxq
      cases hxq
      rw [amaxOf_cost]
      rfl
  obtain ⟨accs, -, hdot⟩ := bind_eq_ok.mp hdot
  -- Scale and minimum are each a product, and no product adds.
  cases hdot
  have hf16 : ∀ lo hi : UInt8, (f16Le lo hi : Cost).adds = 0 := fun lo hi => rfl
  change (f16Le w[0] w[1] : Cost).adds + xq.d.adds + 0 + ((f16Le w[2] w[3] : Cost).adds + xq.d.adds + 0) = 0
  rw [hf16, hf16, hd]
  rfl

private theorem barePass_row3 {x : List Cost} {w : List UInt8} (hx : x.length = 256) (hw : w.length = 144) :
    ∃ v : Cost, linearDispatch .serial x ⟨[256, 1], .q4_k, w, true⟩ 256 1 3 = .ok [v] ∧ v.adds = 1 := by
  obtain ⟨xq, hxq, hbounded⟩ := quantizeBlockQ8_ok (Nat.le_of_eq hx)
  have hxs : (slice x 0 256 : Res (List Cost)) = .ok x := by
    rw [slice_of_le (Nat.zero_le _) (Nat.le_of_eq hx.symm), List.drop_zero, List.take_of_length_le (Nat.le_of_eq hx)]
  have hws : (slice w 0 144 : Res (List UInt8)) = .ok w := by
    rw [slice_of_le (Nat.zero_le _) (Nat.le_of_eq hw.symm), List.drop_zero, List.take_of_length_le (Nat.le_of_eq hw)]
  -- One block of 256 values, one row of 144 bytes: both slices are the whole.
  have hquant : quantizeRow 1 x = .ok [xq] := by
    change (slice x 0 256 >>= fun xs => quantizeBlockQ8 xs) >>= (fun q => (pure [q] : Res _)) = _
    rw [hxs, ok_bind, hxq]
    rfl
  have hblocks : 0 < (blocksOf 144 w).length := by
    rw [length_blocksOf, hw]
    decide
  obtain ⟨p, hp⟩ := dotQ4kQ8Block_ok (blocksOf 144 w)[0] hbounded 256
  have hdot : blockDot dotQ4kQ8Block [xq] w 0 = .ok p := by
    unfold blockDot
    rw [index_of_lt hblocks, ok_bind]
    exact hp
  have hrow : runningRow dotQ4kQ8Block 1 [xq] w = .ok (F32.add F32.zero p) := by
    simp only [runningRow, forRange, forFrom, hdot, ok_bind]
    rfl
  have hcheck : checkRows "linear_q4_k_integer_rs: in_feat not a multiple of 256"
      "linear_q4_k_integer_rs: weight shape mismatch" 144 256 1 w = .ok () := by
    unfold checkRows word
    rw [if_neg (by decide), if_pos (by decide), ok_bind, if_neg (by omega)]
    rfl
  -- The row starts at zero and adds its only block: one addition.
  refine ⟨F32.add F32.zero p, ?_, ?_⟩
  · change (checkRows _ _ 144 256 1 w >>= fun _ => linearRows 144 (quantizeRow 1) (runningRow dotQ4kQ8Block 1) x w
      [F32.zero] 1 256 1) = _
    rw [hcheck, ok_bind]
    simp only [linearRows, batchRows, rowLoop, Fill.storeAt, rowAt, forRange, forFrom, Nat.zero_mul, Nat.zero_add,
      Nat.one_mul, hxs, hquant, hws, hrow, ok_bind]
    rfl
  · change 0 + p.adds + 1 = 1
    rw [dotQ4k_cost hxq hp]

private theorem barePass_tensor {n : Nat} {xs : List Cost} (hlength : xs.length = n) (hn : n < wordSize - 1) :
    ∃ x, vectorTensor xs n = .ok x ∧ x.shape.dims = [n] ∧ x.dtype = .f32 ∧ x.storage = .f32 xs := by
  have hrank : [n].length ≤ maxRank := (by decide : 1 ≤ 6)
  have hcount : Shape.numel ⟨[n], hrank⟩ = n := by
    simp only [Shape.numel, Shape.saturatingMul, List.foldl_cons, List.foldl_nil, Nat.one_mul]
    exact Nat.min_eq_left (Nat.le_of_lt hn)
  obtain ⟨x, hx⟩ := @Tensor.fromF32_ok Cost xs ⟨[n], hrank⟩ [1] (by rw [hlength, hcount]) rfl
  obtain ⟨hdata, hshape, hdtype, -⟩ := Tensor.fromF32_eq_ok hx
  exact ⟨x, hx, by rw [hshape], hdtype, hdata⟩

/-- Without layers, a step is the norm of the embedding and one row of the head. -/
private theorem barePass_logits :
    ∃ normed : List Cost, normed.length = 256 ∧ ∀ (regime : UInt8) (v : Cost),
      linearDispatch .serial normed ⟨[256, 1], .q4_k, List.replicate 144 0, true⟩ 256 1 regime = .ok [v] →
      (((step .serial noHash bareHead bareHeadWeights 0 0).eval ⟨[], [], regime⟩).1 >>= tensorAsF32) = .ok [v] := by
  have hreads := bareEmbedding_holds.reads (F := Cost)
  generalize QuantTensor.table (F := Cost) _ = table at hreads
  have hembedded : (row 256 table 0).length = 256 := length_row Nat.one_pos hreads.length
  obtain ⟨x, hx, hdims, hdtype, hdata⟩ := barePass_tensor hembedded (by decide)
  obtain ⟨normed, hrows, hnormed⟩ := @rmsRows_ok Cost _ (row 256 table 0) (List.replicate 256 ⟨0⟩) ⟨0⟩ 256 1
    (Nat.le_of_eq hembedded.symm) List.length_replicate
  rw [hembedded] at hnormed
  refine ⟨normed, hnormed, fun regime v hrow => ?_⟩
  -- The pass of this model has no layer: embedding, norm and classifier are left.
  obtain ⟨z, hz, -, -, hlogit⟩ := @barePass_tensor 1 [v] rfl (by decide)
  have hpass : passOf .serial noHash bareHead bareHeadWeights none 0 regime = .ok (barePass regime) := rfl
  have hquiet : Quiet ((barePass regime).forward 0) (Causal.embed (barePass regime) 0 >>= Causal.logits (barePass regime)) := by
    unfold Pass.forward
    refine .bind (quiet_embed rfl 0) fun x => ?_
    exact .known (.pure x) (quiet_logits rfl x)
  -- The embedded row is read from the table, then normalized, then given to the classifier.
  have hembed : Causal.embed (barePass regime) 0 = .ok x := by
    change ((embeddingRow (zeroMatrix 256) 0 256 : Res (List Cost)) >>= fun row => vectorTensor row 256) = _
    rw [hreads.lookup 0 Nat.one_pos, ok_bind, hx]
  have hnorm : Causal.normalized (barePass regime) x (List.replicate 256 ⟨0⟩) = .ok normed := by
    have hlength : normed.length = x.shape.numel := by
      rw [hnormed, ← x.filled, hdata]
      exact hembedded.symm
    obtain ⟨xb, hxb⟩ := Tensor.fromF32_ok hlength x.rowMajor
    unfold Causal.normalized rmsNormSlice
    rw [if_neg (not_not_intro hdtype), Tensor.isContiguous_eq, ok_bind]
    simp only [Bool.not_true, Bool.false_eq_true, if_false, hdims, List.isEmpty_cons, List.getLastD_cons,
      List.getLastD_nil, List.length_replicate, ne_eq, not_true_eq_false, hdata, hembedded,
      div_of_pos (Nat.succ_pos 255), ok_bind]
    change (rmsRows (row 256 table 0) (List.replicate 256 ⟨0⟩) ⟨0⟩ 256 1 >>= fun out =>
      Tensor.fromF32 out x.shape) >>= tensorAsF32 = _
    rw [hrows, ok_bind, hxb, ok_bind]
    unfold tensorAsF32
    rw [(Tensor.fromF32_eq_ok hxb).1]
  have hlogits : Causal.logits (barePass regime) x = .ok z := by
    change (Causal.normalized (barePass regime) x (List.replicate 256 ⟨0⟩) >>= fun x =>
      linearDispatch .serial x ⟨[256, 1], .q4_k, List.replicate 144 0, true⟩ 256 1 regime >>= fun y =>
        vectorTensor y 1) = _
    rw [hnorm, ok_bind, hrow, ok_bind]
    exact hz
  rw [step_eval_ok hpass, hquiet.eval, hembed, ok_bind, hlogits, ok_bind]
  unfold tensorAsF32
  rw [hlogit]

end BareHead

/-- A state that was set to regime 3 gives other logits than a fresh one. -/
theorem stale_regime_differs :
    bareHead.Grouped 256 1 ∧
      (RunState.new bareHead : Res (RunState Cost)) = .ok ⟨[], [], 2⟩ ∧
      RunState.SizedFor bareHead 256 (⟨[], [], 2⟩ : RunState Cost) ∧
      RunState.SizedFor bareHead 256 (RunState.setRegime (⟨[], [], 2⟩ : RunState Cost) 3) ∧
      (((step .serial noHash bareHead bareHeadWeights 0 0).eval ⟨[], [], 2⟩).1 >>= tensorAsF32) ≠
        (((step .serial noHash bareHead bareHeadWeights 0 0).eval
          (RunState.setRegime ⟨[], [], 2⟩ 3)).1 >>= tensorAsF32) := by
  refine ⟨⟨rfl, rfl, rfl⟩, rfl, ⟨rfl, rfl⟩, ⟨rfl, rfl⟩, ?_⟩
  obtain ⟨normed, hlength, hlogits⟩ := barePass_logits
  obtain ⟨v, hrow, hv⟩ := barePass_row hlength (w := List.replicate 144 0) List.length_replicate
  obtain ⟨v', hrow', hv'⟩ := barePass_row3 hlength (w := List.replicate 144 0) List.length_replicate
  -- Regime 2 splits the row into lanes, regime 3 adds block by block: the costs differ.
  have hset := hlogits 3 v' hrow'
  change _ ≠ (((step .serial noHash bareHead bareHeadWeights 0 0).eval ⟨[], [], 3⟩).1 >>= tensorAsF32)
  rw [hlogits 2 v hrow, hset]
  rintro hsame
  cases hsame
  omega

end VitniTensor
