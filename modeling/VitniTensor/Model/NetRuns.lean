import VitniTensor.Model.Gemma
import VitniTensor.Model.Incremental
import VitniTensor.Model.NetDense

/-!
# Runs as nets

A pass whose every step computes a net computes the run of the net, token by token, from any caches of the right
size: what they hold from the current position on is never looked at.
-/

namespace VitniTensor

open Outcome Exec Rows

variable {F : Type} [F32 F]

/-! ### The rows of a net -/

namespace Net

variable {reduce : Reduction F} {m : Net F}

theorem isRow_layers (pos : Nat) (past : Past F) (blks : List (Block F)) (layer : Nat) (x : List F) :
    ∀ kv ∈ (m.layers reduce pos past blks layer x).2, kv.1.length = m.kvDim ∧ kv.2.length = m.kvDim := by
  induction blks generalizing layer x with
  | nil => exact fun kv hmem => absurd hmem List.not_mem_nil
  | cons blk blks ih =>
    intro kv hmem
    rcases List.mem_cons.mp hmem with rfl | hmem
    · exact ⟨length_key pos blk x, length_value pos blk x⟩
    · exact ih _ _ kv hmem

omit [F32 F] in
/-- One more position. -/
theorem pastOf_append (logs : List (List (KeyValue F))) (log : List (KeyValue F)) (layer : Nat) :
    pastOf (logs ++ [log]) layer =
      ((pastOf logs layer).1 ++ [(log.getD layer ([], [])).1], (pastOf logs layer).2 ++ [(log.getD layer ([], [])).2]) := by
  unfold pastOf
  rw [List.map_append, List.map_append]
  rfl

end Net

/-! ### Caches -/

/-- The rows of the positions before are those of `logs`. -/
structure RunState.Remembers (p : Pass F) (logs : List (List (KeyValue F))) (s : RunState F) : Prop where
  fits : s.Fits p
  past : ∀ layer < p.cfg.nLayers, s.past (p.atPos logs.length) layer = Net.pastOf logs layer

omit [F32 F] in
/-- Nothing is asked of what the caches hold at first. -/
theorem RunState.Fits.remembers {p : Pass F} {s : RunState F} (hs : s.Fits p) : s.Remembers p [] :=
  ⟨hs, fun _ _ => rfl⟩

omit [F32 F] in
/-- The past after a step that writes the rows of `log`. -/
theorem RunState.Remembers.writeRows {p : Pass F} {logs : List (List (KeyValue F))} {s : RunState F}
    (hs : s.Remembers p logs) (hpos : logs.length < p.cfg.seqLen) {log : List (KeyValue F)}
    (hlog : ∀ kv ∈ log, kv.IsRow p) (hcount : log.length = p.cfg.nLayers) :
    (s.writeRows (p.atPos logs.length) 0 log).Remembers p (logs ++ [log]) := by
  obtain ⟨hfits, hrows⟩ := @RunState.rows_writeRows F (p.atPos logs.length) hpos log hlog 0
    (by rw [Nat.zero_add, hcount]; exact Nat.le_refl _) s ⟨hs.fits.keys, hs.fits.values⟩
  refine ⟨⟨hfits.keys, hfits.values⟩, fun layer hlayer => ?_⟩
  have hown : log[layer]? = some (log.getD layer ([], [])) := by
    rw [List.getD_eq_getElem?_getD, List.getElem?_eq_getElem (by omega)]
    rfl
  -- the row of the step is that of the log, those before it stay
  have hlast := hrows layer logs.length hpos
  rw [if_pos ⟨Nat.zero_le layer, rfl⟩, Nat.sub_zero, hown, Option.getD_some] at hlast
  have hfront : ∀ t ∈ List.range logs.length,
      row p.kvDim (s.writeRows (p.atPos logs.length) 0 log).keyCache (p.rowIndex layer t) =
          row p.kvDim s.keyCache (p.rowIndex layer t) ∧
        row p.kvDim (s.writeRows (p.atPos logs.length) 0 log).valueCache (p.rowIndex layer t) =
          row p.kvDim s.valueCache (p.rowIndex layer t) := by
    intro t ht
    have hlt := List.mem_range.mp ht
    have hstays := hrows layer t (Nat.lt_trans hlt hpos)
    rw [if_neg fun h => Nat.ne_of_lt hlt h.2] at hstays
    exact ⟨congrArg Prod.fst hstays, congrArg Prod.snd hstays⟩
  have hkey : row p.kvDim (s.writeRows (p.atPos logs.length) 0 log).keyCache (p.rowIndex layer logs.length) =
      (log.getD layer ([], [])).1 := congrArg Prod.fst hlast
  have hvalue : row p.kvDim (s.writeRows (p.atPos logs.length) 0 log).valueCache (p.rowIndex layer logs.length) =
      (log.getD layer ([], [])).2 := congrArg Prod.snd hlast
  rw [Net.pastOf_append, ← hs.past layer hlayer]
  unfold RunState.past Pass.pastRows
  have hcount' : (p.atPos (logs ++ [log]).length).pos = logs.length + 1 := List.length_append
  rw [hcount', List.range_succ, List.map_append, List.map_append, List.map_singleton, List.map_singleton]
  refine Prod.ext ?_ ?_
  · refine congrArg₂ (· ++ ·) (List.map_congr_left fun t ht => (hfront t ht).1) (congrArg ([·]) hkey)
  · refine congrArg₂ (· ++ ·) (List.map_congr_left fun t ht => (hfront t ht).2) (congrArg ([·]) hvalue)

omit [F32 F] in
/-- Passes of the same sizes write the same cells. -/
theorem RunState.writeRows_frame {p p' : Pass F} (hcfg : p.cfg = p'.cfg) (hkv : p.kvDim = p'.kvDim) (hpos : p.pos = p'.pos)
    (layer : Nat) (log : List (KeyValue F)) (s : RunState F) : s.writeRows p layer log = s.writeRows p' layer log := by
  induction log generalizing layer s with
  | nil => rfl
  | cons kv log ih =>
    have hrow : s.writeRow p layer kv = s.writeRow p' layer kv := by
      unfold RunState.writeRow Pass.rowIndex
      rw [hcfg, hkv, hpos]
    unfold RunState.writeRows
    rw [hrow, ih]

/-! ### Runs of a pass -/

/-- At every position, whatever the caches hold of it, the pass computes the net `m` and writes its rows. -/
structure Pass.Computes (p : Pass F) (reduce : Reduction F) (m : Net F) (Ready : UInt8 → Prop)
    (forward : Forward (RunState F) F) : Prop where
  sized : m.Sized
  layers : m.blocks.length = p.cfg.nLayers
  kvDim : m.kvDim = p.kvDim
  vocabSize : m.vocabSize = p.cfg.vocabSize
  step : ∀ {pos : Nat} {token : UInt32} {s : RunState F}, pos < p.cfg.seqLen → s.Fits p → Ready s.regime →
    token.toNat < p.cfg.vocabSize →
    ∃ z, (forward token pos).eval s =
        (.ok z, s.writeRows (p.atPos pos) 0 (m.step reduce pos (s.past (p.atPos pos)) token).2) ∧
      z.Is [p.cfg.vocabSize] (m.step reduce pos (s.past (p.atPos pos)) token).1

namespace Pass.Computes

variable {p : Pass F} {reduce : Reduction F} {m : Net F} {Ready : UInt8 → Prop} {forward : Forward (RunState F) F}

/-- A step writes one row to each layer. -/
theorem isRow_step (h : p.Computes reduce m Ready forward) (pos : Nat) (past : Past F) {token : UInt32}
    (htoken : token.toNat < p.cfg.vocabSize) :
    (∀ kv ∈ (m.step reduce pos past token).2, kv.IsRow p) ∧ (m.step reduce pos past token).2.length = p.cfg.nLayers := by
  have hxs := Net.length_embed h.sized (h.vocabSize.symm ▸ htoken)
  refine ⟨fun kv hmem => ?_, ?_⟩
  · have hrow := Net.isRow_layers pos past m.blocks 0 (m.embed token) kv hmem
    rw [h.kvDim] at hrow
    exact hrow
  · rw [← h.layers]
    exact (Net.length_layers pos past m.blocks 0 hxs).2

/-- One step: the logits of the net, and its rows are remembered too. -/
theorem step_remembers (h : p.Computes reduce m Ready forward) {logs : List (List (KeyValue F))}
    (hpos : logs.length < p.cfg.seqLen) {token : UInt32} (htoken : token.toNat < p.cfg.vocabSize) {s : RunState F}
    (hs : s.Remembers p logs) (hready : Ready s.regime) :
    ∃ z s', (forward token logs.length).eval s = (.ok z, s') ∧
      z.Is [p.cfg.vocabSize] (m.step reduce logs.length (Net.pastOf logs) token).1 ∧
      s'.Remembers p (logs ++ [(m.step reduce logs.length (Net.pastOf logs) token).2]) ∧ Ready s'.regime := by
  have hpast : m.step reduce logs.length (s.past (p.atPos logs.length)) token =
      m.step reduce logs.length (Net.pastOf logs) token :=
    Net.step_congr (fun layer hlayer => hs.past layer (h.layers ▸ hlayer)) token
  obtain ⟨hrows, hcount⟩ := h.isRow_step logs.length (Net.pastOf logs) htoken
  obtain ⟨z, hstep, hz⟩ := h.step hpos hs.fits hready htoken
  rw [hpast] at hstep hz
  exact ⟨z, _, hstep, hz, hs.writeRows hpos hrows hcount, by rw [RunState.regime_writeRows]; exact hready⟩

/-- The logits of a run are those of the net, and the caches hold the rows of the net. -/
theorem run (h : p.Computes reduce m Ready forward) {tokens : List UInt32} {logs : List (List (KeyValue F))}
    (hcount : logs.length + tokens.length ≤ p.cfg.seqLen) (htokens : ∀ token ∈ tokens, token.toNat < p.cfg.vocabSize)
    {s : RunState F} (hs : s.Remembers p logs) (hready : Ready s.regime) :
    ∃ ys s', (forwardAll forward (tokens.zipIdx logs.length)).eval s = (.ok ys, s') ∧
      List.Forall₂ (fun y row => y.Is [p.cfg.vocabSize] row) ys (m.run reduce logs tokens).1 ∧
      s'.Remembers p (m.run reduce logs tokens).2 := by
  induction tokens generalizing logs s with
  | nil => exact ⟨[], s, rfl, .nil, hs⟩
  | cons token tokens ih =>
    rw [List.length_cons] at hcount
    obtain ⟨y, t, hstep, hy, ht, hready'⟩ := h.step_remembers (by omega) (htokens token List.mem_cons_self) hs hready
    obtain ⟨log, hlog⟩ : ∃ log, log = (m.step reduce logs.length (Net.pastOf logs) token).2 := ⟨_, rfl⟩
    rw [← hlog] at ht
    have hnext : (logs ++ [log]).length = logs.length + 1 := by rw [List.length_append, List.length_singleton]
    obtain ⟨ys, s', hrun, hys, hs'⟩ := ih (by omega) (fun t ht => htokens t (List.mem_cons_of_mem token ht)) ht hready'
    rw [hlog] at hys hs'
    refine ⟨y :: ys, s', ?_, .cons hy hys, hs'⟩
    rw [List.zipIdx_cons, forwardAll, eval_bind_ok hstep, eval_bind_ok (by rw [← hnext]; exact hrun)]
    rfl

/-- Two passes that compute one net do the same. -/
theorem same_run {Ready' : UInt8 → Prop} {forward' : Forward (RunState F) F} (h : p.Computes reduce m Ready forward)
    (h' : p.Computes reduce m Ready' forward') {tokens : List UInt32} {pos : Nat}
    (hcount : pos + tokens.length ≤ p.cfg.seqLen) (htokens : ∀ token ∈ tokens, token.toNat < p.cfg.vocabSize)
    {s : RunState F} (hs : s.Fits p) (hready : Ready s.regime) (hready' : Ready' s.regime) :
    (forwardAll forward (tokens.zipIdx pos)).eval s = (forwardAll forward' (tokens.zipIdx pos)).eval s := by
  induction tokens generalizing pos s with
  | nil => rfl
  | cons token tokens ih =>
    rw [List.length_cons] at hcount
    have htoken := htokens token List.mem_cons_self
    have hpos : pos < p.cfg.seqLen := by omega
    obtain ⟨hrows, hlogCount⟩ := h.isRow_step pos (s.past (p.atPos pos)) htoken
    obtain ⟨y, hstep, hy⟩ := h.step hpos hs hready htoken
    obtain ⟨y', hstep', hy'⟩ := h'.step hpos hs hready' htoken
    obtain rfl := hy.unique hy'
    obtain ⟨hfits, -⟩ := @RunState.rows_writeRows F (p.atPos pos) hpos _ hrows 0
      (by rw [Nat.zero_add, hlogCount]; exact Nat.le_refl _) s ⟨hs.keys, hs.values⟩
    have hcount' : pos + 1 + tokens.length ≤ p.cfg.seqLen := by omega
    have hrest := ih hcount' (fun t ht => htokens t (List.mem_cons_of_mem token ht))
      ⟨hfits.keys, hfits.values⟩ (by rw [RunState.regime_writeRows]; exact hready)
      (by rw [RunState.regime_writeRows]; exact hready')
    rw [List.zipIdx_cons, forwardAll, forwardAll, eval_bind_ok hstep, eval_bind_ok hstep', eval_bind, eval_bind, hrest]

end Pass.Computes

/-! ### The quantized pass -/

omit [F32 F] in
theorem Pass.IsFloat.atPos {p : Pass F} (hp : p.IsFloat) (pos : Nat) : (p.atPos pos).IsFloat where
  shaped := ⟨hp.shaped.dim, hp.shaped.kvDim, hp.shaped.group, hp.shaped.even, hp.shaped.kvMulPos, hp.shaped.head,
    hp.shaped.fits⟩
  quiet := hp.quiet
  regime := hp.regime
  dim := hp.dim
  sized := hp.sized
  layers := hp.layers
  head := hp.head
  neox := hp.neox

theorem Pass.IsFloat.computes {build : Build} {blake3 : Blake3} {cfg : Config} {w : QuantizedWeights F} {regime : UInt8}
    {p : Pass F} (hpass : passOf build blake3 cfg w none 0 regime = .ok p) (hp : p.IsFloat) :
    p.Computes canonicalValue p.net (· = regime) (step build blake3 cfg w) where
  sized := hp.net_sized
  layers := (List.length_map _).trans hp.sized.layers
  kvDim := rfl
  vocabSize := rfl
  step := by
    intro pos token s hpos hs hready htoken
    have hat := passOf_atPos hpass pos
    rw [← hready] at hat
    obtain ⟨z, heval, hz⟩ := quantized_forward (hp.atPos pos) hpos ⟨hs.keys, hs.values⟩ htoken
    rw [step_eval_ok hat, heval]
    exact ⟨z, rfl, hz⟩

omit [F32 F] in
theorem passOf_cfg {build : Build} {blake3 : Blake3} {cfg : Config} {w : QuantizedWeights F}
    {plan : Option (InterventionPlan F)} {pos : Nat} {regime : UInt8} {p : Pass F}
    (h : passOf build blake3 cfg w plan pos regime = .ok p) : p.cfg = cfg := by
  obtain ⟨kvDim, -, h⟩ := bind_eq_ok.mp h
  obtain ⟨kvMul, -, h⟩ := bind_eq_ok.mp h
  obtain ⟨headSize, -, h⟩ := bind_eq_ok.mp h
  cases h
  rfl

omit [F32 F] in
theorem passOf_kvDim {build : Build} {blake3 : Blake3} {cfg : Config} {w : QuantizedWeights F}
    {plan : Option (InterventionPlan F)} {pos : Nat} {regime : UInt8} {p : Pass F}
    (h : passOf build blake3 cfg w plan pos regime = .ok p) : p.cfg.kvDim = .ok p.kvDim := by
  obtain ⟨kvDim, hkvDim, h⟩ := bind_eq_ok.mp h
  obtain ⟨kvMul, -, h⟩ := bind_eq_ok.mp h
  obtain ⟨headSize, -, h⟩ := bind_eq_ok.mp h
  cases h
  exact hkvDim

/-- A small model of zeros on any floats. -/
def smallWeights : QuantizedWeights F where
  tokenEmbeddingTable := zeroMatrix 8
  layers := [⟨List.replicate 4 F32.zero, zeroMatrix 16, zeroMatrix 8, zeroMatrix 8, zeroMatrix 16,
    List.replicate 4 F32.zero, zeroMatrix 8, zeroMatrix 8, zeroMatrix 8, none, none, none⟩]
  rmsFinalWeight := List.replicate 4 F32.zero
  wcls := none
  ropeTheta := ropeBase
  rmsEps := rmsEpsilon
  ropeNeox := false

def smallPass : Pass F :=
  ⟨.serial, noHash, twoHeads, smallWeights, none, 0, 2, 2, 2, 2⟩

theorem smallPass_of : passOf .serial noHash twoHeads (smallWeights : QuantizedWeights F) none 0 2 = .ok smallPass :=
  rfl

theorem smallPass_isFloat : (smallPass : Pass F).IsFloat := by
  -- every matrix of the model is one of these
  have hfloat : ∀ n, (zeroMatrix n).dtype ≠ .q6_k := fun n h => nomatch h
  have hzero := zeroWeights_sized.each _ (List.mem_singleton_self _)
  refine ⟨(@passOf_ok F .serial noHash twoHeads smallWeights none 0 2 smallPass 2 2 ⟨rfl, rfl, rfl⟩ smallPass_of).1, rfl,
    show (2 : UInt8) ≠ 3 by decide, show 0 < 4 by decide, ⟨rfl, fun blk hmem => ?_, rfl, zeroWeights_sized.embedding,
      zeroWeights_sized.tied, nofun⟩,
    fun blk hmem => ?_, hfloat 8, rfl⟩
  · rw [List.mem_singleton.mp hmem]
    exact ⟨rfl, rfl, hzero.wq, hzero.wk, hzero.wv, hzero.wo, hzero.w1, hzero.w2, hzero.w3⟩
  · rw [List.mem_singleton.mp hmem]
    exact ⟨hfloat 16, hfloat 8, hfloat 8, hfloat 16, hfloat 8, hfloat 8, hfloat 8, rfl, rfl, rfl⟩

/-- Caches that have been used. -/
def smallState (v : F) : RunState F :=
  ⟨List.replicate 4 v, List.replicate 4 v, 2⟩

theorem smallTokens : ∀ token ∈ ([1, 0] : List UInt32), token.toNat < twoHeads.vocabSize :=
  List.forall_mem_cons.mpr ⟨show 1 < 2 by decide, List.forall_mem_singleton.mpr (show 0 < 2 by decide)⟩

/-- On float matrices of any dtype, a run of the quantized pass computes the net of the decoded weights, with the
canonical reduction in attention, and leaves the net's keys and values in the caches. -/
theorem quantized_run {build : Build} {blake3 : Blake3} {cfg : Config} {w : QuantizedWeights F} {p : Pass F}
    {s : RunState F} (hpass : passOf build blake3 cfg w none 0 s.regime = .ok p) (hp : p.IsFloat) (hs : s.Fits p)
    {tokens : List UInt32} (hcount : tokens.length ≤ cfg.seqLen) (htokens : ∀ token ∈ tokens, token.toNat < cfg.vocabSize) :
    ∃ ys s', (forwardAll (step build blake3 cfg w) tokens.zipIdx).eval s = (.ok ys, s') ∧
      List.Forall₂ (fun y row => y.Is [cfg.vocabSize] row) ys (p.net.run canonicalValue [] tokens).1 ∧
      s'.Remembers p (p.net.run canonicalValue [] tokens).2 := by
  have hcfg := passOf_cfg hpass
  subst hcfg
  obtain ⟨ys, s', hrun, hys, hs'⟩ := (hp.computes hpass).run
    (by rw [List.length_nil, Nat.zero_add]; exact hcount) htokens hs.remembers rfl
  exact ⟨ys, s', hrun, hys, hs'⟩

theorem quantized_run_small :
    ∃ ys s', (forwardAll (step .serial noHash twoHeads smallWeights) [(1, 0), (0, 1)]).eval (smallState (⟨3⟩ : Cost)) =
        (.ok ys, s') ∧
      List.Forall₂ (fun y row => y.Is [2] row) ys ((smallPass : Pass Cost).net.run canonicalValue [] [1, 0]).1 ∧
      s'.Remembers smallPass ((smallPass : Pass Cost).net.run canonicalValue [] [1, 0]).2 :=
  @quantized_run Cost _ .serial noHash twoHeads smallWeights smallPass (smallState ⟨3⟩) smallPass_of smallPass_isFloat
    ⟨rfl, rfl⟩ [1, 0] (show 2 ≤ 2 from Nat.le_refl 2) smallTokens

/-! ### The F32 passes -/

def smallDense : DensePass F :=
  ⟨twoHeads, smallTables, 0, 2, 2, 2⟩

theorem short_in_memory {n : Nat} (h : n ≤ 16) : (List.replicate n (F32.zero : F)).length * 4 < 2 ^ 63 := by
  rw [List.length_replicate]
  omega

theorem smallDense_isSized : (smallDense : DensePass F).IsSized where
  shaped := by
    have hshaped := (smallPass_isFloat : (smallPass : Pass F).IsFloat).shaped
    exact ⟨hshaped.dim, hshaped.kvDim, hshaped.group, hshaped.even, hshaped.kvMulPos, hshaped.head, hshaped.fits⟩
  dim := show 0 < 4 by decide
  weights := ⟨rfl, rfl, rfl, rfl, rfl, rfl, rfl, rfl, rfl, rfl, rfl, rfl⟩
  memory := ⟨short_in_memory (by decide), short_in_memory (by decide), short_in_memory (by decide),
    short_in_memory (by decide), short_in_memory (by decide)⟩
  seqLen := show 2 < wordSize by decide

namespace DensePass

variable {cfg : Config} {weights : Weights F} {d : DensePass F}

omit [F32 F] in
theorem of_atPos (h : DensePass.of cfg weights 0 = .ok d) (pos : Nat) :
    DensePass.of cfg weights pos = .ok (d.atPos pos) := by
  obtain ⟨kvDim, hkvDim, h⟩ := bind_eq_ok.mp h
  obtain ⟨kvMul, hkvMul, h⟩ := bind_eq_ok.mp h
  obtain ⟨headSize, hheadSize, h⟩ := bind_eq_ok.mp h
  cases h
  unfold DensePass.of
  rw [hkvDim, ok_bind, hkvMul, ok_bind, hheadSize, ok_bind]
  rfl

theorem IsSized.atPos (hd : d.IsSized) (pos : Nat) : (d.atPos pos).IsSized where
  shaped := ⟨hd.shaped.dim, hd.shaped.kvDim, hd.shaped.group, hd.shaped.even, hd.shaped.kvMulPos, hd.shaped.head,
    hd.shaped.fits⟩
  dim := hd.dim
  weights := hd.weights
  memory := hd.memory
  seqLen := hd.seqLen

theorem IsSized.computes {cpu : CpuArchitecture F} (values : cpu.Values) (hof : DensePass.of cfg weights 0 = .ok d)
    (hd : d.IsSized) : d.frame.Computes serialValue (d.net values) (fun _ => True) (cpu.step cfg weights) where
  sized := hd.net_sized values
  layers := by
    change ((List.range d.cfg.nLayers).map d.block).length = d.cfg.nLayers
    rw [List.length_map, List.length_range]
  kvDim := rfl
  vocabSize := rfl
  step := by
    intro pos token s hpos hs _ htoken
    obtain ⟨z, heval, hz⟩ := forward_eval values (hd.atPos pos) hpos ⟨hs.keys, hs.values⟩ htoken
    refine ⟨z, ?_, hz⟩
    unfold CpuArchitecture.step
    rw [of_atPos hof, lift_ok, pure_bind]
    exact heval

theorem IsSized.llama_computes (hof : DensePass.of cfg weights 0 = .ok d) (hd : d.IsSized) :
    d.frame.Computes serialValue (d.net CpuArchitecture.llamaValues) (fun _ => True) (DensePass.step cfg weights) := by
  have hstep : CpuArchitecture.llama.step cfg weights = DensePass.step cfg weights :=
    funext₂ fun token pos => CpuArchitecture.llama_step cfg weights token pos
  rw [← hstep]
  exact hd.computes CpuArchitecture.llamaValues hof

omit [F32 F] in
theorem of_kvDim (h : DensePass.of cfg weights 0 = .ok d) : d.cfg.kvDim = .ok d.kvDim := by
  obtain ⟨kvDim, hkvDim, h⟩ := bind_eq_ok.mp h
  obtain ⟨kvMul, -, h⟩ := bind_eq_ok.mp h
  obtain ⟨headSize, -, h⟩ := bind_eq_ok.mp h
  cases h
  exact hkvDim

omit [F32 F] in
theorem of_cfg (h : DensePass.of cfg weights 0 = .ok d) : d.cfg = cfg := by
  obtain ⟨kvDim, -, h⟩ := bind_eq_ok.mp h
  obtain ⟨kvMul, -, h⟩ := bind_eq_ok.mp h
  obtain ⟨headSize, -, h⟩ := bind_eq_ok.mp h
  cases h
  rfl

/-- A run of an F32 pass, in either architecture. -/
theorem run_values {cpu : CpuArchitecture F} (values : cpu.Values) (hof : DensePass.of cfg weights 0 = .ok d)
    (hd : d.IsSized) {s : RunState F} (hs : s.Fits d.frame) {tokens : List UInt32} (hcount : tokens.length ≤ cfg.seqLen)
    (htokens : ∀ token ∈ tokens, token.toNat < cfg.vocabSize) :
    ∃ ys s', (forwardAll (cpu.step cfg weights) tokens.zipIdx).eval s = (.ok ys, s') ∧
      List.Forall₂ (fun y row => y.Is [cfg.vocabSize] row) ys ((d.net values).run serialValue [] tokens).1 ∧
      s'.Remembers d.frame ((d.net values).run serialValue [] tokens).2 := by
  have hcfg := of_cfg hof
  subst hcfg
  obtain ⟨ys, s', hrun, hys, hs'⟩ := (hd.computes values hof).run
    (by rw [List.length_nil, Nat.zero_add]; exact hcount) htokens hs.remembers trivial
  exact ⟨ys, s', hrun, hys, hs'⟩

/-- A run of the F32 pass computes the net of its weights, with sums in order in attention, and leaves the net's
keys and values in the caches. -/
theorem llama_run (hof : DensePass.of cfg weights 0 = .ok d) (hd : d.IsSized) {s : RunState F} (hs : s.Fits d.frame)
    {tokens : List UInt32} (hcount : tokens.length ≤ cfg.seqLen) (htokens : ∀ token ∈ tokens, token.toNat < cfg.vocabSize) :
    ∃ ys s', (forwardAll (DensePass.step cfg weights) tokens.zipIdx).eval s = (.ok ys, s') ∧
      List.Forall₂ (fun y row => y.Is [cfg.vocabSize] row) ys ((d.net CpuArchitecture.llamaValues).run serialValue [] tokens).1 ∧
      s'.Remembers d.frame ((d.net CpuArchitecture.llamaValues).run serialValue [] tokens).2 := by
  have hstep : CpuArchitecture.llama.step cfg weights = DensePass.step cfg weights :=
    funext₂ fun token pos => CpuArchitecture.llama_step cfg weights token pos
  rw [← hstep]
  exact run_values CpuArchitecture.llamaValues hof hd hs hcount htokens

theorem llama_run_small :
    ∃ ys s', (forwardAll (DensePass.step twoHeads smallTables) [(1, 0), (0, 1)]).eval (smallState (⟨3⟩ : Cost)) =
        (.ok ys, s') ∧
      List.Forall₂ (fun y row => y.Is [2] row) ys
        ((smallDense.net CpuArchitecture.llamaValues).run serialValue [] [1, 0]).1 ∧
      s'.Remembers (smallDense : DensePass Cost).frame
        ((smallDense.net CpuArchitecture.llamaValues).run serialValue [] [1, 0]).2 :=
  @llama_run Cost _ twoHeads smallTables smallDense rfl smallDense_isSized (smallState ⟨3⟩) ⟨rfl, rfl⟩ [1, 0]
    (Nat.le_refl 2) smallTokens

end DensePass

/-- So does a run of Gemma, with its own norm, activation and scale. -/
theorem Gemma.gemma_run {F : Type} [ErfF32 F] {cfg : Config} {weights : Weights F} {d : DensePass F}
    (hof : DensePass.of cfg weights 0 = .ok d) (hd : d.IsSized) {s : RunState F} (hs : s.Fits d.frame)
    {tokens : List UInt32} (hcount : tokens.length ≤ cfg.seqLen) (htokens : ∀ token ∈ tokens, token.toNat < cfg.vocabSize) :
    ∃ ys s', (forwardAll (Gemma.step cfg weights) tokens.zipIdx).eval s = (.ok ys, s') ∧
      List.Forall₂ (fun y row => y.Is [cfg.vocabSize] row) ys ((d.net Gemma.values).run serialValue [] tokens).1 ∧
      s'.Remembers d.frame ((d.net Gemma.values).run serialValue [] tokens).2 := by
  have hstep : Gemma.cpu.step cfg weights = Gemma.step cfg weights :=
    funext₂ fun token pos => (Gemma.step_eq cfg weights token pos).symm
  rw [← hstep]
  exact DensePass.run_values Gemma.values hof hd hs hcount htokens

theorem Gemma.gemma_run_small :
    ∃ ys s', (forwardAll (Gemma.step twoHeads smallTables) [(1, 0), (0, 1)]).eval (smallState (⟨3⟩ : Cost)) = (.ok ys, s') ∧
      List.Forall₂ (fun y row => y.Is [2] row) ys ((smallDense.net Gemma.values).run serialValue [] [1, 0]).1 ∧
      s'.Remembers (smallDense : DensePass Cost).frame ((smallDense.net Gemma.values).run serialValue [] [1, 0]).2 :=
  @Gemma.gemma_run Cost _ twoHeads smallTables smallDense rfl smallDense_isSized (smallState ⟨3⟩) ⟨rfl, rfl⟩ [1, 0]
    (Nat.le_refl 2) smallTokens

end VitniTensor
