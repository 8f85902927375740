import VitniTensor.Inference.Greedy
import VitniTensor.Model.Incremental

/-!
# Runs that return

On a model of the sizes that its configuration says, every request in bounds is answered: with matrices of any dtype,
with or without biases, in either RoPE layout and in either regime.
-/

namespace VitniTensor

open Outcome Exec Rows

variable {F : Type} [F32 F]

/-! ### A step -/

namespace Causal

variable {p : Pass F}

theorem embed_returns (hp : p.WellShaped) (hw : p.weights.Sized p.cfg p.headSize) {token : UInt32}
    (htoken : token.toNat < p.cfg.vocabSize) : ∃ x, embed p token = .ok x ∧ x.IsVector p.cfg.dim := by
  have hreads := hw.embedding.reads (F := F)
  obtain ⟨x, hx, hvec⟩ := vectorTensor_ok (length_row htoken hreads.length) hp.fits
  unfold embed
  rw [hreads.lookup token.toNat htoken, ok_bind]
  exact ⟨x, hx, hvec⟩

/-- Rows of the width of the caches, as many keys as values. -/
structure PastRows (p : Pass F) (past : List (List F) × List (List F)) : Prop where
  keys : AreRows p past.1
  values : AreRows p past.2
  same : past.1.length = past.2.length

omit [F32 F] in
theorem AreRows.snoc {rows : List (List F)} (h : AreRows p rows) {row : List F} (hrow : row.length = p.kvDim) :
    AreRows p (rows ++ [row]) :=
  List.forall_mem_append.mpr ⟨h, List.forall_mem_singleton.mpr hrow⟩

theorem layerOut_returns (hp : p.WellShaped) (hdim : 0 < p.cfg.dim) {past : Past F} {layer : Nat}
    (hpast : PastRows p (past layer)) {blk : QuantLayer F} (hget : p.weights.layers[layer]? = some blk)
    (hblk : blk.Sized p.cfg p.headSize) {x : Tensor F} (hx : x.IsVector p.cfg.dim) :
    ∃ x' kv, layerOut p past layer x = (.ok x', [kv]) ∧ x'.IsVector p.cfg.dim := by
  obtain ⟨q, k, v, hqkv, hq, hk, hv⟩ := queryKeyValue_ok hp hdim hblk hx
  obtain ⟨x', hx', hvec⟩ := block_ok hp hdim hblk hx hq (hpast.keys.snoc hk) (hpast.values.snoc hv)
    (by simp [hpast.same])
  have hrow : layerRow p layer x = .ok (blk, q, k, v) := by
    unfold layerRow
    rw [index_eq_ok.mpr hget, ok_bind, hqkv]
    rfl
  refine ⟨x', (k, v), ?_, hvec⟩
  unfold layerOut
  rw [hrow]
  exact Prod.ext hx' rfl

theorem rows_returns (hp : p.WellShaped) (hdim : 0 < p.cfg.dim) (hw : p.weights.Sized p.cfg p.headSize) {past : Past F}
    (hpast : ∀ layer < p.cfg.nLayers, PastRows p (past layer)) {n layer : Nat} (hlayers : layer + n = p.cfg.nLayers)
    {x : Tensor F} (hx : x.IsVector p.cfg.dim) :
    ∃ x', (rows p past n layer x).1 = .ok x' ∧ x'.IsVector p.cfg.dim := by
  induction n generalizing layer x with
  | zero => exact ⟨x, rfl, hx⟩
  | succ n ih =>
    have hlt : layer < p.weights.layers.length := by
      rw [hw.layers]
      omega
    obtain ⟨x₁, kv, hout, hx₁⟩ := layerOut_returns hp hdim (hpast layer (by omega))
      (List.getElem?_eq_getElem hlt) (hw.each _ (List.getElem_mem hlt)) hx
    obtain ⟨x', hrest, hx'⟩ := @ih (layer + 1) (by omega) x₁ hx₁
    refine ⟨x', ?_, hx'⟩
    rw [rows, hout]
    exact hrest

theorem stepRows_returns (hp : p.WellShaped) (hdim : 0 < p.cfg.dim) (hw : p.weights.Sized p.cfg p.headSize)
    {past : Past F} (hpast : ∀ layer < p.cfg.nLayers, PastRows p (past layer)) {token : UInt32}
    (htoken : token.toNat < p.cfg.vocabSize) :
    ∃ z, (stepRows p past token).1 = .ok z ∧ z.IsVector p.cfg.vocabSize := by
  obtain ⟨x, hembed, hx⟩ := embed_returns hp hw htoken
  obtain ⟨x', hrows, hx'⟩ := rows_returns hp hdim hw hpast (Nat.zero_add p.cfg.nLayers) hx
  obtain ⟨z, hz, hvec⟩ := logits_ok hdim hw hx'
  refine ⟨z, ?_, hvec⟩
  unfold stepRows
  rw [hembed]
  dsimp only
  rw [hrows, ok_bind, hz]

end Causal

/-- Weights that the configuration describes, with heads in groups and caches that exist. -/
structure QuantizedWeights.Complete (w : QuantizedWeights F) (cfg : Config) (headSize kvMul : Nat) : Prop where
  grouped : cfg.Grouped headSize kvMul
  sized : w.Sized cfg headSize
  dim : 0 < cfg.dim
  caches : cfg.CachesFit

section Complete

variable {build : Build} {blake3 : Blake3} {cfg : Config} {w : QuantizedWeights F} {headSize kvMul : Nat}

omit [F32 F] in
/-- The derived sizes are there: none of the divisions is by zero. -/
theorem QuantizedWeights.Complete.passOf_returns (hw : w.Complete cfg headSize kvMul) (pos : Nat) (regime : UInt8) :
    ∃ p, passOf build blake3 cfg w none pos regime = .ok p := by
  have hheads := hw.caches.heads
  have hkv : 0 < cfg.nKvHeads := Nat.pos_of_mul_pos_left (hw.grouped.group ▸ hheads)
  unfold passOf Config.kvDim Config.kvMul Config.headSize
  rw [word_of_lt hw.caches.width, ok_bind, div_of_pos hheads, ok_bind, div_of_pos hkv, ok_bind, div_of_pos hheads,
    ok_bind]
  exact ⟨_, rfl⟩

theorem QuantizedWeights.Complete.step_returns (hw : w.Complete cfg headSize kvMul) {pos : Nat} (hpos : pos < cfg.seqLen)
    {token : UInt32} (htoken : token.toNat < cfg.vocabSize) {s : RunState F} (hs : s.SizedFor cfg headSize) :
    ∃ z s', (step build blake3 cfg w token pos).eval s = (.ok z, s') ∧ z.IsVector cfg.vocabSize ∧
      s'.SizedFor cfg headSize := by
  obtain ⟨p, hpass⟩ := @passOf_returns F build blake3 cfg w headSize kvMul hw pos s.regime
  obtain ⟨hout, hwrote, -⟩ := step_rows hw.grouped hpos hs hpass token
  obtain ⟨hp, hform⟩ := passOf_ok hw.grouped hpass
  obtain rfl : p.cfg = cfg := by rw [hform]
  obtain rfl : p.headSize = headSize := by rw [hform]
  obtain rfl : p.weights = w := by rw [hform]
  obtain rfl : p.pos = pos := by rw [hform]
  have hkv := hp.kvDim
  have hpast : ∀ layer < p.cfg.nLayers, Causal.PastRows p (s.past p layer) := fun layer hlayer => by
    have hkeys : s.keyCache.length = p.cells := by rw [hs.keys, Pass.cells, hkv]
    have hvalues : s.valueCache.length = p.cells := by rw [hs.values, Pass.cells, hkv]
    refine ⟨p.areRows_pastRows hkeys hlayer hpos.le, p.areRows_pastRows hvalues hlayer hpos.le, ?_⟩
    rw [RunState.past, p.length_pastRows, p.length_pastRows]
  obtain ⟨z, hz, hvec⟩ := Causal.stepRows_returns hp hw.dim hw.sized hpast htoken
  exact ⟨z, _, Prod.ext (hout.trans hz) rfl, hvec, hwrote.sized⟩

/-! ### A run -/

/-- The loop has fed the tokens in front of `pos` and recorded those behind the prompt. -/
structure Fed (cfg : Config) (prompt : List UInt32) (pos : Nat) (fed : UInt32 × List UInt32) : Prop where
  token : fed.1.toNat < cfg.vocabSize
  recorded : ∀ t ∈ fed.2, t.toNat < cfg.vocabSize
  count : fed.2.length = pos - prompt.length

/-- One turn: the pick is a token of the vocabulary again. -/
theorem QuantizedWeights.Complete.turn (hw : w.Complete cfg headSize kvMul) (hvocab : cfg.vocabSize ≤ 2 ^ 32)
    {prompt : List UInt32} (hprompt : ∀ t ∈ prompt, t.toNat < cfg.vocabSize) {pos : Nat} (hpos : pos < cfg.seqLen)
    {fed : UInt32 × List UInt32} (hfed : Fed cfg prompt pos fed) {s : RunState F} (hs : s.SizedFor cfg headSize) :
    ∃ fed' s', (perTokenBody (step build blake3 cfg w) prompt pos fed).eval s = (.ok fed', s') ∧
      Fed cfg prompt (pos + 1) fed' ∧ s'.SizedFor cfg headSize := by
  obtain ⟨z, s', hstep, hvec, hs'⟩ := @step_returns F _ build blake3 cfg w headSize kvMul hw pos hpos fed.1 hfed.token s hs
  obtain ⟨xs, hz, hxs⟩ := isVector_iff.mp hvec
  have hsome : 0 < cfg.vocabSize := Nat.zero_lt_of_lt hfed.token
  have hpick := @greedyToken_lt F _ xs (by omega) (by omega)
  rw [hxs] at hpick
  have hcount := hfed.count
  -- the token fed next: of the prompt, or the pick
  obtain ⟨next, hnext, hlt⟩ : ∃ next, nextToken prompt pos (greedyToken xs) = .ok next ∧ next.toNat < cfg.vocabSize := by
    unfold nextToken
    split
    next hmore => exact ⟨_, index_of_lt hmore, hprompt _ (List.getElem_mem hmore)⟩
    next => exact ⟨_, rfl, hpick⟩
  refine ⟨(next, if pos ≥ prompt.length then fed.2 ++ [next] else fed.2), s', ?_, ?_, hs'⟩
  · unfold perTokenBody
    rw [eval_bind_ok hstep, hz.pick_eq hxs hsome, lift_ok, pure_bind, hnext, lift_ok, pure_bind]
    rfl
  · by_cases hbehind : pos ≥ prompt.length
    · rw [if_pos hbehind]
      exact ⟨hlt, List.forall_mem_append.mpr ⟨hfed.recorded, List.forall_mem_singleton.mpr hlt⟩,
        by simp [hcount, Nat.sub_add_comm hbehind]⟩
    · rw [if_neg hbehind]
      exact ⟨hlt, hfed.recorded, by rw [hcount]; omega⟩

theorem QuantizedWeights.Complete.turns (hw : w.Complete cfg headSize kvMul) (hvocab : cfg.vocabSize ≤ 2 ^ 32)
    {prompt : List UInt32} (hprompt : ∀ t ∈ prompt, t.toNat < cfg.vocabSize) {pos n : Nat} (hend : pos + n ≤ cfg.seqLen)
    {fed : UInt32 × List UInt32} (hfed : Fed cfg prompt pos fed) {s : RunState F} (hs : s.SizedFor cfg headSize) :
    ∃ fed' s', (forFrom pos n (perTokenBody (step build blake3 cfg w) prompt) fed).eval s = (.ok fed', s') ∧
      Fed cfg prompt (pos + n) fed' := by
  induction n generalizing pos fed s with
  | zero => exact ⟨fed, s, rfl, hfed⟩
  | succ n ih =>
    obtain ⟨mid, s₁, hturn, hmid, hs₁⟩ :=
      @turn F _ build blake3 cfg w headSize kvMul hw hvocab prompt hprompt pos (by omega) fed hfed s hs
    obtain ⟨fed', s', hrest, hfed'⟩ := @ih (pos + 1) (by omega) mid hmid s₁ hs₁
    refine ⟨fed', s', ?_, ?_⟩
    · rw [forFrom, eval_bind_ok hturn, hrest]
    · rwa [Nat.add_assoc, Nat.add_comm 1] at hfed'

theorem QuantizedWeights.Complete.tokens (hw : w.Complete cfg headSize kvMul) {req : Request} (hreq : req.InBounds cfg)
    {s : RunState F} (hs : s.SizedFor cfg headSize) :
    ∃ generated s', (perTokenTokens cfg req (step build blake3 cfg w)).eval s = (.ok generated, s') ∧
      generated.length = req.nNewTokens ∧ ∀ t ∈ generated, t.toNat < cfg.vocabSize := by
  obtain ⟨first, rest, hprompt⟩ := List.exists_cons_of_ne_nil hreq.some
  have hcount : req.promptTokens.length = rest.length + 1 := by rw [hprompt, List.length_cons]
  have hfits := hreq.fits
  have hmemory := hreq.memory
  have hfirst : (index req.promptTokens 0 : Res UInt32) = .ok first := by
    rw [hprompt]
    rfl
  have hstart : Fed cfg req.promptTokens 0 (first, []) :=
    ⟨hreq.tokens first (hprompt ▸ List.mem_cons_self), fun t hmem => absurd hmem List.not_mem_nil, (Nat.zero_sub _).symm⟩
  obtain ⟨fed, s', hloop, hfed⟩ := @turns F _ build blake3 cfg w headSize kvMul hw hreq.vocab req.promptTokens hreq.tokens
    0 (req.promptTokens.length + req.nNewTokens) (by omega) (first, []) hstart s hs
  refine ⟨fed.2, s', ?_, ?_, hfed.recorded⟩
  · unfold perTokenTokens
    rw [show reserveTokens req.nNewTokens = .ok () from if_pos (by omega), lift_ok, pure_bind, if_neg (by omega),
      word_of_lt (by unfold wordSize; omega), lift_ok, pure_bind, if_neg (by omega), hfirst, lift_ok, pure_bind,
      forRange, eval_bind_ok hloop]
    rfl
  · rw [hfed.count, Nat.zero_add, Nat.add_sub_cancel_left]

/-- A generation of as many tokens as were asked for, all of the vocabulary. -/
def Answers (cfg : Config) (req : Request) (r : Res Generation) : Prop :=
  ∃ g, r = .ok g ∧ g.generatedTokens.length = req.nNewTokens ∧ ∀ t ∈ g.generatedTokens, t.toNat < cfg.vocabSize

/-- Given tokens with their receipt. -/
def Generation.of (blake3 : Blake3) (cfg : Config) (weightsBlobHash : Hash) (req : Request) (generated : List UInt32) :
    Generation :=
  ⟨generated, (bindOutputs blake3 (bindInputs blake3 cfg weightsBlobHash req) generated).finalize blake3⟩

/-- A sink that never refuses takes every receipt. -/
theorem withoutSink_issueTokens (blake3 : Blake3) (cfg : Config) (weightsBlobHash : Hash) (req : Request) (tier : UInt8)
    (generated : List UInt32) : withoutSink (issueTokens blake3 cfg weightsBlobHash req nullSink tier generated) =
      .ok (.of blake3 cfg weightsBlobHash req generated) :=
  rfl

/-- On fresh caches, in any regime. -/
theorem QuantizedWeights.Complete.fresh (hw : w.Complete cfg headSize kvMul) {req : Request} (hreq : req.InBounds cfg)
    {setup : RunState F → RunState F} (hsetup : ∀ s, s.SizedFor cfg headSize → (setup s).SizedFor cfg headSize)
    (weightsBlobHash : Hash) :
    Answers cfg req (withoutSink (issueFresh blake3 cfg weightsBlobHash req nullSink 0 setup (step build blake3 cfg w))) := by
  obtain ⟨p, hpass⟩ := @passOf_returns F build blake3 cfg w headSize kvMul hw 0 2
  obtain ⟨kvDim, hkvDim, -⟩ := bind_eq_ok.mp hpass
  obtain ⟨s, hnew, -⟩ := @Config.CachesFit.new F _ cfg hw.caches kvDim hkvDim
  obtain ⟨hs, -⟩ := RunState.new_ok hw.grouped hnew
  obtain ⟨generated, s', htokens, hcount, hknown⟩ :=
    @tokens F _ build blake3 cfg w headSize kvMul hw req hreq (setup s) (hsetup s hs)
  refine ⟨.of blake3 cfg weightsBlobHash req generated, ?_, hcount, hknown⟩
  rw [issueFresh_eq hnew ⟨s', htokens⟩, withoutSink_issueTokens]

/-- **Every request in bounds is answered** on complete weights, in regime 2 and in regime 3. -/
theorem complete_answers (hw : w.Complete cfg headSize kvMul) {req : Request} (hreq : req.InBounds cfg)
    (weightsBlobHash : Hash) :
    Answers cfg req (runQuantized build blake3 cfg w weightsBlobHash req) ∧
      Answers cfg req (runQuantizedRegime3 build blake3 cfg w weightsBlobHash req) := by
  have hregime : ∀ s : RunState F, s.SizedFor cfg headSize → (s.setRegime 3).SizedFor cfg headSize :=
    fun s hs => ⟨hs.keys, hs.values⟩
  exact ⟨hw.fresh hreq (fun _ hs => hs) weightsBlobHash, hw.fresh hreq hregime weightsBlobHash⟩

theorem complete_answers_small :
    Answers twoHeads smallRequest (runQuantized .serial noHash twoHeads zeroWeights (noHash []) smallRequest) ∧
      Answers twoHeads smallRequest (runQuantizedRegime3 .serial noHash twoHeads zeroWeights (noHash []) smallRequest) :=
  @complete_answers Cost _ .serial noHash twoHeads zeroWeights 2 2
    ⟨⟨rfl, rfl, rfl⟩, zeroWeights_sized, by decide, twoHeads_cachesFit⟩ smallRequest smallRequest_inBounds (noHash [])

end Complete

end VitniTensor
