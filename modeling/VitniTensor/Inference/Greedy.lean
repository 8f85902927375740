import VitniTensor.Inference.Guards
import VitniTensor.Model.DenseTwin
import VitniTensor.Ops.Totality

/-!
# Greedy generation

A driver around a pass that computes a net issues the receipt of the tokens that the net itself generates, picking
the first largest logit each time. The token picked behind the prompt is fed but not recorded.
-/

namespace VitniTensor

open Outcome Exec

variable {F : Type} [F32 F]

/-! ### The pick -/

/-- The index of the first largest logit. -/
def greedyToken (logits : List F) : UInt32 :=
  UInt32.ofNat (argmaxScan 1 (logits.drop 1) (0, logits.headD F32.zero)).1

/-- The scan stays inside the row. -/
theorem argmaxScan_lt {i : Nat} (row : List F) {best : Nat × F} (h : best.1 < i) :
    (argmaxScan i row best).1 < i + row.length := by
  induction row generalizing i best with
  | nil => exact h
  | cons v row ih =>
    have hbest : (if F32.lt best.2 v then (i, v) else best).1 < i + 1 := by
      split
      next => exact Nat.lt_succ_self i
      next => exact Nat.lt_succ_of_lt h
    have hrest := ih hbest
    rw [List.length_cons]
    unfold argmaxScan
    omega

theorem argmaxRow_eq {row : List F} (h : 0 < row.length) : argmaxRow row = .ok (greedyToken row) := by
  cases row with
  | nil => exact absurd h (Nat.lt_irrefl 0)
  | cons first rest => rfl

theorem greedyToken_lt {row : List F} (h : 0 < row.length) (hfits : row.length ≤ 2 ^ 32) :
    (greedyToken row).toNat < row.length := by
  have hscan := @argmaxScan_lt F _ 1 (row.drop 1) (0, row.headD F32.zero) Nat.one_pos
  rw [List.length_drop] at hscan
  unfold greedyToken
  rw [UInt32.toNat_ofNat_of_lt' (by simp only [UInt32.size]; omega)]
  omega

/-- The token that a driver picks from one row of logits. -/
theorem Tensor.Is.pick_eq {n : Nat} {xs : List F} {t : Tensor F} (h : t.Is [n] xs) (hxs : xs.length = n) (hn : 0 < n) :
    t.pick = .ok (greedyToken xs) := by
  have hargmax := @Tensor.Is.argmax_eq F _ [] n xs t h
  have hone : argmaxRows xs n 1 = .ok [greedyToken xs] := by
    refine collectRange_eq (v := fun _ => greedyToken xs) fun r hr => ?_
    obtain rfl : r = 0 := by omega
    have hrow : (slice xs (0 * n) ((0 + 1) * n) : Res (List F)) = .ok xs := by
      rw [slice_of_le (by omega) (by omega), Nat.zero_mul, List.drop_zero]
      simp [hxs]
    rw [hrow, ok_bind, argmaxRow_eq (by omega)]
  obtain ⟨a, ha⟩ : ∃ a : Tensor F, fromU32 [greedyToken xs] ⟨[1], by decide⟩ = .ok a := fromU32_ok rfl rfl
  have hpicked : t.argmaxLastDim = .ok a := by
    rw [hargmax, div_of_pos hn, ok_bind, hxs, Nat.div_self hn, hone, ok_bind, if_pos rfl]
    exact ha
  unfold pick
  rw [hpicked, ok_bind]
  exact argmaxU32_head (fromU32_eq_ok ha).1

/-! ### Generation by a net -/

namespace Net

variable (reduce : Reduction F) (m : Net F)

/-- The next `n` tokens when `token` is fed behind the positions of `logs`. -/
def decode : List (List (KeyValue F)) → UInt32 → Nat → List UInt32
  | _, _, 0 => []
  | logs, token, n + 1 =>
    let out := m.step reduce logs.length (pastOf logs) token
    greedyToken out.1 :: decode (logs ++ [out.2]) (greedyToken out.1) n

/-- The tokens after the one picked behind the prompt. -/
def generate (prompt : List UInt32) (n : Nat) : List UInt32 :=
  let fed := m.run reduce [] prompt
  m.decode reduce fed.2 (greedyToken (fed.1.getLastD [])) n

variable {reduce m}

theorem length_run_logs (logs : List (List (KeyValue F))) (tokens : List UInt32) :
    (m.run reduce logs tokens).2.length = logs.length + tokens.length := by
  induction tokens generalizing logs with
  | nil => rfl
  | cons token tokens ih =>
    unfold run
    rw [ih, List.length_append, List.length_singleton, List.length_cons, Nat.add_assoc, Nat.add_comm 1]

theorem run_singleton (logs : List (List (KeyValue F))) (token : UInt32) :
    m.run reduce logs [token] = ([(m.step reduce logs.length (pastOf logs) token).1],
      logs ++ [(m.step reduce logs.length (pastOf logs) token).2]) := by
  rw [run, run]

theorem run_cons_logs (logs : List (List (KeyValue F))) (token : UInt32) (tokens : List UInt32) :
    (m.run reduce logs (token :: tokens)).2 =
      (m.run reduce (logs ++ [(m.step reduce logs.length (pastOf logs) token).2]) tokens).2 := by
  rw [run]

/-- Every position has logits of the whole vocabulary. -/
theorem length_run_each (logs : List (List (KeyValue F))) (tokens : List UInt32) :
    ∀ row ∈ (m.run reduce logs tokens).1, row.length = m.vocabSize := by
  induction tokens generalizing logs with
  | nil => exact fun row hmem => absurd hmem List.not_mem_nil
  | cons token tokens ih =>
    intro row hmem
    rw [run] at hmem
    rcases List.mem_cons.mp hmem with rfl | hmem
    · exact length_step _ _ _
    · exact ih _ row hmem

theorem length_last {logs : List (List (KeyValue F))} {tokens : List UInt32} (h : 0 < tokens.length) :
    ((m.run reduce logs tokens).1.getLastD []).length = m.vocabSize := by
  obtain ⟨row, rows, hrun⟩ := List.exists_cons_of_length_pos (h.trans_eq (length_run logs tokens).symm)
  have hmem : rows.getLastD row ∈ (m.run reduce logs tokens).1 := hrun ▸ List.getLastD_mem_cons
  rw [hrun, List.getLastD_cons]
  exact length_run_each logs tokens _ hmem

/-- The last logits of a longer run. -/
theorem getLastD_run_cons (logs : List (List (KeyValue F))) (token next : UInt32) (tokens : List UInt32) :
    (m.run reduce logs (token :: next :: tokens)).1.getLastD [] =
      (m.run reduce (logs ++ [(m.step reduce logs.length (pastOf logs) token).2]) (next :: tokens)).1.getLastD [] := by
  obtain ⟨last, front, hrest⟩ := @List.exists_cons_of_length_pos _
    (m.run reduce (logs ++ [(m.step reduce logs.length (pastOf logs) token).2]) (next :: tokens)).1
    (by rw [length_run]; exact Nat.succ_pos _)
  rw [run, hrest, List.getLastD_cons, List.getLastD_cons, List.getLastD_cons]

end Net

/-! ### The token loop -/

/-- A request that the drivers accept, of tokens of the vocabulary. -/
structure Request.InBounds (req : Request) (cfg : Config) : Prop where
  some : req.promptTokens ≠ []
  tokens : ∀ token ∈ req.promptTokens, token.toNat < cfg.vocabSize
  fits : req.promptTokens.length + req.nNewTokens ≤ cfg.seqLen
  /-- A token of `u32` stands for every entry. -/
  vocab : cfg.vocabSize ≤ 2 ^ 32
  /-- So many tokens are no longer than memory. -/
  memory : cfg.seqLen * 4 < 2 ^ 63

namespace Pass.Computes

variable {p : Pass F} {reduce : Reduction F} {m : Net F} {Ready : UInt8 → Prop} {forward : Forward (RunState F) F}

/-- One turn of the loop: the pick of the net, or the next token of the prompt. -/
theorem turn (h : p.Computes reduce m Ready forward) (hvocab : 0 < p.cfg.vocabSize) (prompt : List UInt32)
    {logs : List (List (KeyValue F))} (hpos : logs.length < p.cfg.seqLen) {token : UInt32}
    (htoken : token.toNat < p.cfg.vocabSize) (recorded : List UInt32) {s : RunState F} (hs : s.Remembers p logs)
    (hready : Ready s.regime) {next : UInt32}
    (hnext : nextToken prompt logs.length (greedyToken (m.step reduce logs.length (Net.pastOf logs) token).1) = .ok next) :
    ∃ s', (perTokenBody forward prompt logs.length (token, recorded)).eval s =
        (.ok (next, if logs.length ≥ prompt.length then recorded ++ [next] else recorded), s') ∧
      s'.Remembers p (logs ++ [(m.step reduce logs.length (Net.pastOf logs) token).2]) ∧ Ready s'.regime := by
  obtain ⟨z, s', hstep, hz, hs', hready'⟩ := h.step_remembers hpos htoken hs hready
  have hlength : (m.step reduce logs.length (Net.pastOf logs) token).1.length = p.cfg.vocabSize := by
    rw [Net.length_step, h.vocabSize]
  refine ⟨s', ?_, hs', hready'⟩
  unfold perTokenBody
  rw [eval_bind_ok hstep, hz.pick_eq hlength hvocab, lift_ok, pure_bind, hnext, lift_ok, pure_bind]
  rfl

/-- The prompt, from the position of `token` on: nothing is recorded, and the pick of the last logits is fed next. -/
theorem prompt_turns (h : p.Computes reduce m Ready forward) (hvocab : 0 < p.cfg.vocabSize) {prompt rest : List UInt32}
    {token : UInt32} {logs : List (List (KeyValue F))} (hrest : prompt.drop logs.length = token :: rest)
    (hcount : prompt.length ≤ p.cfg.seqLen) (hprompt : ∀ t ∈ prompt, t.toNat < p.cfg.vocabSize) {s : RunState F}
    (hs : s.Remembers p logs) (hready : Ready s.regime) :
    ∃ s', (forFrom logs.length (rest.length + 1) (perTokenBody forward prompt) (token, [])).eval s =
        (.ok (greedyToken ((m.run reduce logs (token :: rest)).1.getLastD []), []), s') ∧
      s'.Remembers p (m.run reduce logs (token :: rest)).2 ∧ Ready s'.regime := by
  have hlength := congrArg List.length hrest
  rw [List.length_drop, List.length_cons] at hlength
  have htoken := hprompt token (List.mem_of_mem_drop (hrest ▸ List.mem_cons_self))
  have hbefore : ¬logs.length ≥ prompt.length := by omega
  induction rest generalizing token logs s with
  | nil =>
    obtain ⟨s', hturn, hs', hready'⟩ := h.turn hvocab prompt (by omega) htoken [] hs hready
      (if_neg (by rw [List.length_nil] at hlength; omega))
    rw [if_neg hbefore] at hturn
    rw [Net.run_singleton]
    refine ⟨s', ?_, hs', hready'⟩
    rw [List.length_nil, forFrom, eval_bind_ok hturn]
    rfl
  | cons next rest ih =>
    rw [List.length_cons] at hlength
    have hmore : logs.length + 1 < prompt.length := by omega
    have hdrop : prompt.drop (logs.length + 1) = next :: rest := by
      rw [← List.drop_drop, hrest]
      rfl
    have hat : prompt[logs.length + 1] = next := by
      rw [List.drop_eq_getElem_cons hmore] at hdrop
      exact (List.cons.inj hdrop).1
    obtain ⟨s', hturn, hs', hready'⟩ := @turn F _ p reduce m Ready forward h hvocab prompt logs (by omega) token htoken
      [] s hs hready next (by unfold nextToken; rw [if_pos hmore, index_of_lt hmore, hat])
    rw [if_neg hbefore] at hturn
    have hsnoc : (logs ++ [(m.step reduce logs.length (Net.pastOf logs) token).2]).length = logs.length + 1 := by
      rw [List.length_append, List.length_singleton]
    obtain ⟨s'', hrun, hs'', hready''⟩ := @ih next _ (by rw [hsnoc]; exact hdrop) s' hs' hready'
      (by rw [hsnoc]; omega) (hprompt next (List.mem_of_mem_drop (hdrop ▸ List.mem_cons_self))) (by rw [hsnoc]; omega)
    rw [Net.run_cons_logs, Net.getLastD_run_cons]
    refine ⟨s'', ?_, hs'', hready''⟩
    rw [List.length_cons, forFrom, eval_bind_ok hturn, ← hrun, hsnoc]

/-- The positions behind the prompt: every pick is recorded and fed. -/
theorem decode_turns (h : p.Computes reduce m Ready forward) (hvocab : 0 < p.cfg.vocabSize)
    (hfits : p.cfg.vocabSize ≤ 2 ^ 32) {prompt : List UInt32} {logs : List (List (KeyValue F))}
    (hbehind : prompt.length ≤ logs.length) {n : Nat} (hcount : logs.length + n ≤ p.cfg.seqLen) {token : UInt32}
    (htoken : token.toNat < p.cfg.vocabSize) (recorded : List UInt32) {s : RunState F} (hs : s.Remembers p logs)
    (hready : Ready s.regime) :
    ∃ last s', (forFrom logs.length n (perTokenBody forward prompt) (token, recorded)).eval s =
      (.ok (last, recorded ++ m.decode reduce logs token n), s') := by
  induction n generalizing logs token recorded s with
  | zero => exact ⟨token, s, by rw [Net.decode, List.append_nil]; rfl⟩
  | succ n ih =>
    obtain ⟨s', hturn, hs', hready'⟩ := h.turn hvocab prompt (by omega) htoken recorded hs hready
      (if_neg (by omega))
    rw [if_pos hbehind] at hturn
    have hlength : (m.step reduce logs.length (Net.pastOf logs) token).1.length = p.cfg.vocabSize := by
      rw [Net.length_step, h.vocabSize]
    have hpicked : (greedyToken (m.step reduce logs.length (Net.pastOf logs) token).1).toNat < p.cfg.vocabSize :=
      hlength ▸ greedyToken_lt (by omega) (by omega)
    have hsnoc : (logs ++ [(m.step reduce logs.length (Net.pastOf logs) token).2]).length = logs.length + 1 := by
      rw [List.length_append, List.length_singleton]
    obtain ⟨last, s'', hrun⟩ := ih (by omega) (by omega) hpicked
      (recorded ++ [greedyToken (m.step reduce logs.length (Net.pastOf logs) token).1]) hs' hready'
    refine ⟨last, s'', ?_⟩
    rw [forFrom, eval_bind_ok hturn, ← hsnoc, hrun, Net.decode, List.append_assoc]
    rfl

/-- The tokens of the per-token driver. -/
theorem perTokenTokens_eval (h : p.Computes reduce m Ready forward) {req : Request} (hreq : req.InBounds p.cfg)
    {s : RunState F} (hs : s.Fits p) (hready : Ready s.regime) :
    ∃ s', (perTokenTokens p.cfg req forward).eval s = (.ok (m.generate reduce req.promptTokens req.nNewTokens), s') := by
  obtain ⟨first, rest, hprompt⟩ := List.exists_cons_of_ne_nil hreq.some
  have hcount : req.promptTokens.length = rest.length + 1 := by rw [hprompt, List.length_cons]
  have hfits := hreq.fits
  have hmemory := hreq.memory
  have hvocab : 0 < p.cfg.vocabSize := Nat.zero_lt_of_lt (hreq.tokens first (hprompt ▸ List.mem_cons_self))
  obtain ⟨s₁, hfront, hs₁, hready₁⟩ := @prompt_turns F _ p reduce m Ready forward h hvocab req.promptTokens rest first []
    hprompt (Nat.le_of_add_right_le hfits) hreq.tokens s hs.remembers hready
  have hlogs : (m.run reduce [] req.promptTokens).2.length = req.promptTokens.length := by
    rw [Net.length_run_logs, List.length_nil, Nat.zero_add]
  have hlast : ((m.run reduce [] req.promptTokens).1.getLastD []).length = p.cfg.vocabSize := by
    rw [← h.vocabSize]
    exact Net.length_last (by omega)
  have hpicked := @greedyToken_lt F _ _ (by rw [hlast]; exact hvocab) (by rw [hlast]; exact hreq.vocab)
  rw [← hprompt] at hfront hs₁
  obtain ⟨last, s₂, hback⟩ := @decode_turns F _ p reduce m Ready forward h hvocab hreq.vocab req.promptTokens _
    (Nat.le_of_eq hlogs.symm) req.nNewTokens (by rw [hlogs]; exact hfits) _ (by rw [hlast] at hpicked; exact hpicked) []
    s₁ hs₁ hready₁
  rw [hlogs] at hback
  have hfirst : (index req.promptTokens 0 : Res UInt32) = .ok first := by
    rw [hprompt]
    rfl
  refine ⟨s₂, ?_⟩
  unfold perTokenTokens
  rw [show reserveTokens req.nNewTokens = .ok () from if_pos (by omega), lift_ok, pure_bind, if_neg (by omega),
    word_of_lt (by unfold wordSize; omega), lift_ok, pure_bind, if_neg (by omega),
    hfirst, lift_ok, pure_bind, forRange, forFrom_add, Nat.zero_add, bind_assoc]
  rw [List.length_nil] at hfront
  rw [hcount, eval_bind_ok hfront, ← hcount, eval_bind_ok hback]
  rfl

end Pass.Computes

/-! ### Receipts -/

variable {σ ε : Type}

/-- The receipt of given tokens. -/
def issueTokens (blake3 : Blake3) (cfg : Config) (weightsBlobHash : Hash) (req : Request) (sink : CertSink σ ε)
    (tier : UInt8) (generated : List UInt32) : Exec σ (RunError ε) (Generation × UInt64) := do
  let builder := bindOutputs blake3 (bindInputs blake3 cfg weightsBlobHash req) generated
  let (cert, certId) ← mapErr RunError.sink (builder.finalizeWithSink blake3 sink tier)
  pure (⟨generated, cert⟩, certId)

/-- Fresh caches have the size that the passes expect. -/
theorem Config.CachesFit.new {cfg : Config} (h : cfg.CachesFit) {kvDim : Nat} (hkvDim : cfg.kvDim = .ok kvDim) :
    ∃ s : RunState F, RunState.new cfg = .ok s ∧ s.keyCache.length = cfg.nLayers * cfg.seqLen * kvDim ∧
      s.valueCache.length = cfg.nLayers * cfg.seqLen * kvDim ∧ s.regime = 2 := by
  have hmemory := h.memory
  have hwidth : kvDim = cfg.dim * cfg.nKvHeads / cfg.nHeads := by
    obtain ⟨product, hproduct, hdiv⟩ := bind_eq_ok.mp hkvDim
    obtain ⟨-, rfl⟩ := word_eq_ok.mp hproduct
    exact (div_eq_ok.mp hdiv).2.symm
  rw [← hwidth] at hmemory
  unfold RunState.new
  rw [word_of_lt h.rows, ok_bind, hkvDim, ok_bind, word_of_lt (by unfold wordSize; omega), ok_bind,
    show (zeroVec _ : Res (List F)) = .ok _ from if_pos hmemory, ok_bind, ok_bind]
  exact ⟨_, rfl, List.length_replicate, List.length_replicate, rfl⟩

section Receipts

variable {build : Build} {blake3 : Blake3} {cfg : Config} {weightsBlobHash : Hash} {req : Request} {sink : CertSink σ ε}
  {tier : UInt8}

/-- The driver around a loop that ends with `generated`. -/
theorem issueFresh_eq {forward : Forward (RunState F) F} {run : RunState F} {generated : List UInt32}
    {setup : RunState F → RunState F} (hnew : RunState.new cfg = .ok run)
    (htokens : ∃ s', (perTokenTokens cfg req forward).eval (setup run) = (.ok generated, s')) :
    issueFresh blake3 cfg weightsBlobHash req sink tier setup forward =
      issueTokens blake3 cfg weightsBlobHash req sink tier generated := by
  obtain ⟨s', htokens⟩ := htokens
  refine Exec.ext fun t => ?_
  have htokens' : (onFst (mapErr RunError.inference (perTokenTokens cfg req forward)) :
      Exec (RunState F × σ) (RunError ε) (List UInt32)).eval (setup run, t) = (.ok generated, (s', t)) := by
    rw [eval_onFst, eval_mapErr_ok.mpr htokens]
  unfold issueFresh issueTokens runQuantizedWithForward issue
  rw [hnew, eval_bind_ok (eval_mapErr_ok.mpr (eval_lift _ _)), eval_withLocal, eval_bind_ok htokens', eval_bind,
    eval_bind, eval_onSnd]
  rcases (mapErr RunError.sink ((bindOutputs blake3 (bindInputs blake3 cfg weightsBlobHash req) generated).finalizeWithSink
    blake3 sink tier)).eval t with ⟨stop | r, t'⟩
  · rfl
  · rfl

/-- A pass that computes a net is behind the receipt of what the net generates. -/
theorem Pass.Computes.receipt {p : Pass F} {reduce : Reduction F} {m : Net F} {Ready : UInt8 → Prop}
    {forward : Forward (RunState F) F} (h : p.Computes reduce m Ready forward) (hready : Ready 2)
    (hkvDim : p.cfg.kvDim = .ok p.kvDim) (hcaches : p.cfg.CachesFit) (hreq : req.InBounds p.cfg) :
    issueFresh blake3 p.cfg weightsBlobHash req sink tier id forward =
      issueTokens blake3 p.cfg weightsBlobHash req sink tier (m.generate reduce req.promptTokens req.nNewTokens) := by
  obtain ⟨s, hnew, hkeys, hvalues, hregime⟩ := @Config.CachesFit.new F _ p.cfg hcaches p.kvDim hkvDim
  exact issueFresh_eq hnew (h.perTokenTokens_eval hreq ⟨hkeys, hvalues⟩ (hregime ▸ hready))

/-- One token of the small model's vocabulary, and one more. -/
def smallRequest : Request :=
  ⟨"small", [1], 1⟩

theorem twoHeads_cachesFit : twoHeads.CachesFit :=
  ⟨by decide, by decide, by decide, by decide⟩

theorem smallRequest_inBounds : smallRequest.InBounds twoHeads where
  some := List.cons_ne_nil 1 []
  tokens := List.forall_mem_singleton.mpr (show 1 < 2 by decide)
  fits := by decide
  vocab := by decide
  memory := by decide

/-- `run_quantized_with_sink` on float matrices, for any sink: the receipt of the tokens that the net of the decoded
weights generates. -/
theorem quantized_receipt {w : QuantizedWeights F} {p : Pass F} (hpass : passOf build blake3 cfg w none 0 2 = .ok p)
    (hp : p.IsFloat) (hcaches : cfg.CachesFit) (hreq : req.InBounds cfg) :
    runQuantizedWithSink build blake3 cfg w weightsBlobHash req sink tier =
      issueTokens blake3 cfg weightsBlobHash req sink tier
        (p.net.generate canonicalValue req.promptTokens req.nNewTokens) := by
  obtain rfl := passOf_cfg hpass
  exact (hp.computes hpass).receipt rfl (passOf_kvDim hpass) hcaches hreq

theorem quantized_receipt_small :
    runQuantizedWithSink .serial noHash twoHeads (smallWeights : QuantizedWeights Cost) (noHash []) smallRequest nullSink 0 =
      issueTokens noHash twoHeads (noHash []) smallRequest nullSink 0
        ((smallPass : Pass Cost).net.generate canonicalValue [1] 1) :=
  @quantized_receipt Cost _ Unit Empty .serial noHash twoHeads (noHash []) smallRequest nullSink 0 smallWeights smallPass
    smallPass_of smallPass_isFloat twoHeads_cachesFit smallRequest_inBounds

/-- `run_with_sink`, for any sink: the receipt of the tokens that the net of the weights generates. -/
theorem llama_receipt {weights : Weights F} {d : DensePass F} (hof : DensePass.of cfg weights 0 = .ok d) (hd : d.IsSized)
    (hcaches : cfg.CachesFit) (hreq : req.InBounds cfg) :
    runWithSink blake3 cfg weights weightsBlobHash req sink tier =
      issueTokens blake3 cfg weightsBlobHash req sink tier
        ((d.net CpuArchitecture.llamaValues).generate serialValue req.promptTokens req.nNewTokens) := by
  obtain rfl := DensePass.of_cfg hof
  exact (hd.llama_computes hof).receipt trivial (DensePass.of_kvDim hof) hcaches hreq

theorem llama_receipt_small :
    runWithSink noHash twoHeads (smallTables : Weights Cost) (noHash []) smallRequest nullSink 0 =
      issueTokens noHash twoHeads (noHash []) smallRequest nullSink 0
        (((smallDense : DensePass Cost).net CpuArchitecture.llamaValues).generate serialValue [1] 1) :=
  @llama_receipt Cost _ Unit Empty noHash twoHeads (noHash []) smallRequest nullSink 0 smallTables smallDense rfl
    smallDense_isSized twoHeads_cachesFit smallRequest_inBounds

/-- Without rounding, a quantized model and its plain weights are behind the same receipts. -/
theorem receipts_agree_exactly {R : Type} [CommSemiring R] [F32 R] (h : F32.Exact R) {w : QuantizedWeights R}
    {wd : Weights R} {p : Pass R} (hpass : passOf build blake3 cfg w none 0 2 = .ok p) (hp : p.HasTwin)
    (hwd : dequantizeWeights w = .ok wd) (hcaches : cfg.CachesFit) (hreq : req.InBounds cfg) :
    runQuantizedWithSink build blake3 cfg w weightsBlobHash req sink tier =
      runWithSink blake3 cfg wd weightsBlobHash req sink tier := by
  obtain rfl := passOf_cfg hpass
  have hquantized := @Pass.Computes.receipt _ _ _ _ blake3 weightsBlobHash req sink tier _ _ _ _ _
    (hp.float.computes hpass) rfl (passOf_kvDim hpass) hcaches hreq
  have hdense := @Pass.Computes.receipt _ _ _ _ blake3 weightsBlobHash req sink tier _ _ _ _ _
    (hp.computes hpass hwd) trivial (passOf_kvDim hpass) hcaches hreq
  rw [canonical_eq_serial h] at hquantized
  exact hquantized.trans hdense.symm

end Receipts

section Naturals

attribute [local instance] F32.ofSemiring

theorem receipts_agree_exactly_small :
    runQuantizedWithSink .serial noHash twoHeads (smallWeights : QuantizedWeights Nat) (noHash []) smallRequest nullSink 0 =
      runWithSink noHash twoHeads (smallWeights : QuantizedWeights Nat).tables (noHash []) smallRequest nullSink 0 :=
  @receipts_agree_exactly Unit Empty .serial noHash twoHeads (noHash []) smallRequest nullSink 0 Nat _ _
    (F32.exact_ofSemiring Nat) smallWeights _ smallPass smallPass_of smallPass_hasTwin
    smallWeights_decoded twoHeads_cachesFit smallRequest_inBounds

end Naturals

end VitniTensor
