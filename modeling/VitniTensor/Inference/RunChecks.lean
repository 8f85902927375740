import VitniTensor.Model.StepChecks
import VitniTensor.Inference.Returns

/-!
# The checks of a run

A run allocates its caches and takes one turn for each token: what it depends on is a list of checks for the caches,
and one for each token and position.
-/

namespace VitniTensor

open Outcome Check Exec Pass

variable {F : Type} [F32 F]

/-! ### The checks -/

/-- The caches: their size is counted in a machine word. -/
def Config.cacheChecks (cfg : Config) : List Check :=
  [.trust (cfg.nLayers * cfg.seqLen < wordSize), .trust (cfg.dim * cfg.nKvHeads < wordSize), .trust (0 < cfg.nHeads),
    .trust (cfg.nLayers * cfg.seqLen * (cfg.dim * cfg.nKvHeads / cfg.nHeads) < wordSize),
    room (cfg.nLayers * cfg.seqLen * (cfg.dim * cfg.nKvHeads / cfg.nHeads))]

/-- The sizes that a step derives. -/
def Config.sizeChecks (cfg : Config) : List Check :=
  [.trust (cfg.dim * cfg.nKvHeads < wordSize), .trust (0 < cfg.nHeads), .trust (0 < cfg.nKvHeads)]

/-- The pass of a step without a plan. -/
def Pass.plain (build : Build) (blake3 : Blake3) (cfg : Config) (w : QuantizedWeights F) (regime : UInt8) (pos : Nat) :
    Pass F :=
  { build, blake3, cfg, weights := w, plan := none, pos
    kvDim := cfg.dim * cfg.nKvHeads / cfg.nHeads
    kvMul := cfg.nHeads / cfg.nKvHeads
    headSize := cfg.dim / cfg.nHeads
    regime }

/-- The checks of a turn on a token: a step, and the pick. Nothing is hashed. -/
def turnChecks (build : Build) (cfg : Config) (w : QuantizedWeights F) (regime : UInt8) (pos : Nat) (token : UInt32) :
    List Check :=
  cfg.sizeChecks ++ ((Pass.plain build noHash cfg w regime pos).stepChecks token ++ [.trust (0 < cfg.vocabSize)])

/-! ### The caches -/

/-- Caches of the size that the configuration asks for. -/
structure RunState.CachesFor (cfg : Config) (regime : UInt8) (s : RunState F) : Prop where
  keys : s.keyCache.length = cfg.nLayers * cfg.seqLen * (cfg.dim * cfg.nKvHeads / cfg.nHeads)
  values : s.valueCache.length = cfg.nLayers * cfg.seqLen * (cfg.dim * cfg.nKvHeads / cfg.nHeads)
  regime : s.regime = regime

theorem Config.checked_kvDim (cfg : Config) :
    Outcome.Checked [.trust (cfg.dim * cfg.nKvHeads < wordSize), .trust (0 < cfg.nHeads)]
      (fun n => n = cfg.dim * cfg.nKvHeads / cfg.nHeads ∧ 0 < cfg.nHeads) cfg.kvDim := by
  refine (checked_word (cfg.dim * cfg.nKvHeads)).bind fun total htotal => ?_
  subst htotal
  exact (checked_div _ _).value fun n hn => ⟨(div_eq_ok.mp hn).2.symm, (div_eq_ok.mp hn).1⟩

theorem RunState.checked_new (cfg : Config) :
    Outcome.Checked cfg.cacheChecks (RunState.CachesFor cfg 2) (RunState.new cfg : Res (RunState F)) := by
  unfold RunState.new Config.cacheChecks
  refine (checked_word (cfg.nLayers * cfg.seqLen)).bind fun rows hrows => ?_
  subst hrows
  refine cfg.checked_kvDim.bind fun kvDim hkvDim => ?_
  obtain ⟨rfl, -⟩ := hkvDim
  refine (checked_word _).bind fun total htotal => ?_
  subst htotal
  -- both caches have the same size: where the first one fits, the second one does
  by_cases hroom : cfg.nLayers * cfg.seqLen * (cfg.dim * cfg.nKvHeads / cfg.nHeads) * 4 < 2 ^ 63
  · refine (checked_zeroVec _).before fun keys hkeys => ?_
    rw [zeroVec_of_lt hroom, ok_bind]
    exact checked_ok ⟨hkeys, List.length_replicate, rfl⟩
  · rw [zeroVec_of_ge (Nat.le_of_not_lt hroom)]
    exact checked_fails (decide_eq_false hroom) (iff_of_true rfl rfl)

/-! ### A turn -/

section Turns

variable {build : Build} {blake3 : Blake3} {cfg : Config} {w : QuantizedWeights F} {regime : UInt8} {pos : Nat}

omit [F32 F] in
theorem checked_passOf :
    Outcome.Checked cfg.sizeChecks (· = Pass.plain build blake3 cfg w regime pos)
      (passOf build blake3 cfg w none pos regime) := by
  unfold passOf
  refine cfg.checked_kvDim.bind fun kvDim hkvDim => ?_
  obtain ⟨rfl, hheads⟩ := hkvDim
  refine (checked_div cfg.nHeads cfg.nKvHeads).before fun kvMul hkvMul => ?_
  subst hkvMul
  rw [show cfg.headSize = .ok (cfg.dim / cfg.nHeads) from div_of_pos hheads, ok_bind]
  exact checked_ok rfl

omit [F32 F] in
/-- The checks of a step are the same for every hash function. -/
theorem stepChecks_plain (token : UInt32) : (Pass.plain build blake3 cfg w regime pos).stepChecks token =
    (Pass.plain build noHash cfg w regime pos).stepChecks token := by
  have hlayers : (Pass.plain build blake3 cfg w regime pos).layerChecks =
      (Pass.plain build noHash cfg w regime pos).layerChecks := by
    funext layer
    unfold layerChecks
    rw [trust_congr (d := (Pass.plain build noHash cfg w regime pos).HeadsFit layer)
      ⟨fun h => ⟨h.size, h.group, h.pairs, h.last⟩, fun h => ⟨h.size, h.group, h.pairs, h.last⟩⟩]
    rfl
  unfold stepChecks
  rw [hlayers]
  rfl

theorem checked_step (hw : w.Stored cfg) (hpos : pos < cfg.seqLen) (token : UInt32) :
    Exec.Checked (RunState.CachesFor cfg regime)
      (cfg.sizeChecks ++ (Pass.plain build noHash cfg w regime pos).stepChecks token)
      (fun z s => z.IsVector cfg.vocabSize ∧ s.CachesFor cfg regime) (step build blake3 cfg w token pos) := by
  have hwith : Exec.Checked (fun s : RunState F × Observers F => s.2 = Observers.none ∧ s.1.CachesFor cfg regime)
      (cfg.sizeChecks ++ (Pass.plain build noHash cfg w regime pos).stepChecks token)
      (fun z s => z.IsVector cfg.vocabSize ∧ s.1.CachesFor cfg regime)
      (stepWithRecorders build blake3 cfg w none token pos) := by
    rintro ⟨run, obs⟩ ⟨hobs, hrun⟩
    have heval : (stepWithRecorders build blake3 cfg w none token pos).eval (run, obs) =
        (lift (passOf build blake3 cfg w none pos run.regime) >>= fun p => p.forward token).eval (run, obs) := rfl
    have hpass := @checked_passOf F build blake3 cfg w regime pos
    rw [heval, hrun.regime, eval_bind, eval_lift]
    cases hsizes : passOf build blake3 cfg w none pos regime with
    | error stop =>
      -- without the sizes nothing else runs
      rw [hsizes] at hpass
      exact hpass.stopped
    | ok p =>
      rw [hsizes] at hpass
      obtain ⟨hall, rfl⟩ := hpass
      obtain ⟨hderived, -⟩ := passOf_derived hsizes
      have hforward := checked_forward hderived rfl hw hpos token (run, obs) ⟨hobs, hrun.keys, hrun.values, hrun.regime⟩
      rw [stepChecks_plain] at hforward
      exact .reached hall (hforward.mono fun z hz => ⟨hz.1, hz.2.keys, hz.2.values, hz.2.regime⟩)
  exact fun s hs => hwith (s, Observers.none) ⟨rfl, hs⟩

theorem checked_pick {z : Tensor F} {n : Nat} (hz : z.IsVector n) :
    Outcome.Checked [.trust (0 < n)] (fun _ => True) z.pick := by
  obtain ⟨xs, hz, hxs⟩ := isVector_iff.mp hz
  refine .single (fun hn => ⟨_, hz.pick_eq hxs hn, trivial⟩) fun hn => ⟨.panic .divideByZero, ?_, ?_⟩
  · have hargmax := @Tensor.Is.argmax_eq F _ [] n xs z hz
    unfold Tensor.pick
    rw [hargmax, div, if_pos (Nat.eq_zero_of_not_pos hn)]
    rfl
  · simp [Handled]

/-- The token of the prompt at a position, where there is one. -/
def Feeds (prompt : List UInt32) (pos : Nat) (token : UInt32) : Prop :=
  ∀ t, prompt[pos]? = some t → token = t

theorem checked_turn (hw : w.Stored cfg) (hpos : pos < cfg.seqLen) (prompt : List UInt32) (fed : UInt32 × List UInt32) :
    Exec.Checked (RunState.CachesFor cfg regime) (turnChecks build cfg w regime pos fed.1)
      (fun next s => Feeds prompt (pos + 1) next.1 ∧ s.CachesFor cfg regime)
      (perTokenBody (step build blake3 cfg w) prompt pos fed) := by
  have hnext : ∀ picked, Outcome.Checked [] (Feeds prompt (pos + 1)) (nextToken prompt pos picked) := by
    intro picked
    unfold nextToken
    split
    next hmore => exact .of_ok (index_of_lt hmore) fun t ht => (List.getElem?_eq_some_iff.mp ht).2
    next hend => exact checked_ok fun t ht => absurd (List.getElem?_eq_some_iff.mp ht).1 hend
  unfold perTokenBody turnChecks
  rw [← List.append_assoc]
  refine (checked_step hw hpos fed.1).bind fun z => .given fun hz => ?_
  refine (checked_lift (checked_pick hz)).before fun picked => .given fun _ => ?_
  exact (checked_lift (hnext picked)).after fun next s hs => checked_ok hs

/-! ### A run -/

/-- The prompt, token for token: the checks of its turns. -/
theorem checked_prompt (hw : w.Stored cfg) {prompt : List UInt32} (hfits : prompt.length ≤ cfg.seqLen)
    {fed : UInt32 × List UInt32} (hfed : Feeds prompt 0 fed.1) :
    Exec.Checked (RunState.CachesFor cfg regime)
      ((List.range' 0 prompt.length).flatMap fun pos => turnChecks build cfg w regime pos (prompt.getD pos 0))
      (fun _ _ => True) (forRange prompt.length (perTokenBody (step build blake3 cfg w) prompt) fed) := by
  have hbody : ∀ pos (fed : UInt32 × List UInt32), 0 ≤ pos → pos < 0 + prompt.length →
      Exec.Checked (fun s => Feeds prompt pos fed.1 ∧ s.CachesFor cfg regime)
        (turnChecks build cfg w regime pos (prompt.getD pos 0))
        (fun next s => Feeds prompt (pos + 1) next.1 ∧ s.CachesFor cfg regime)
        (perTokenBody (step build blake3 cfg w) prompt pos fed) := by
    refine fun pos fed _ hlt => .given fun hfeeds => ?_
    have hget : prompt[pos]? = some (prompt.getD pos 0) := by
      rw [List.getD_eq_getElem?_getD, List.getElem?_eq_getElem (by omega), Option.getD_some]
    rw [← hfeeds _ hget]
    exact checked_turn hw (by omega) prompt fed
  have hloop := Exec.Checked.loop (fun pos (fed : UInt32 × List UInt32) (s : RunState F) =>
    Feeds prompt pos fed.1 ∧ s.CachesFor cfg regime) hbody fed
  exact fun s hs => (hloop s ⟨hfed, hs⟩).mono fun _ _ => trivial

/-- What a run relies on: its caches, and each turn that a prompt gets to. -/
structure QuantizedWeights.Guarded (w : QuantizedWeights F) (build : Build) (cfg : Config) (regime : UInt8) : Prop where
  caches : Safe cfg.cacheChecks
  turns : AllPass cfg.cacheChecks → ∀ pos < cfg.seqLen,
    (∀ earlier < pos, ∃ token, AllPass (turnChecks build cfg w regime earlier token)) →
      ∀ token, Safe (turnChecks build cfg w regime pos token)

theorem turns_survive (hw : w.Stored cfg) (hsafe : ∀ pos < cfg.seqLen,
      (∀ earlier < pos, ∃ token, AllPass (turnChecks build cfg w regime earlier token)) →
        ∀ token, Safe (turnChecks build cfg w regime pos token)) (prompt : List UInt32) {lo n : Nat}
    (hend : lo + n ≤ cfg.seqLen) (hlo : ∀ earlier < lo, ∃ token, AllPass (turnChecks build cfg w regime earlier token))
    (fed : UInt32 × List UInt32) {s : RunState F} (hs : s.CachesFor cfg regime) :
    ((forFrom lo n (perTokenBody (step build blake3 cfg w) prompt) fed).eval s).1.Survives := by
  induction n generalizing lo fed s with
  | zero => exact survives_ok fed
  | succ n ih =>
    have hturn := @checked_turn F _ build blake3 cfg w regime lo hw (by omega) prompt fed s hs
    have hsurvives := hturn.survives_iff.mpr (hsafe lo (by omega) hlo fed.1)
    rw [forFrom, eval_bind]
    rcases hrun : (perTokenBody (step build blake3 cfg w) prompt lo fed).eval s with ⟨stop | next, s'⟩
    · rw [hrun] at hsurvives
      exact fun stop' hstop => hsurvives stop' hstop
    · -- a turn that returns has passed its checks, so the next position is reached
      rw [hrun] at hturn
      refine ih (by omega) (fun earlier hearlier => ?_) next hturn.2.2
      rcases Nat.lt_succ_iff_lt_or_eq.mp hearlier with hlt | rfl
      · exact hlo earlier hlt
      · exact ⟨fed.1, hturn.1⟩

end Turns

/-! ### Which models are safe to run -/

section Runs

variable {build : Build} {blake3 : Blake3} {cfg : Config} {w : QuantizedWeights F}

/-- A run is its tokens and their receipt: the sink of `run_quantized` never refuses. -/
theorem runQuantized_eq (weightsBlobHash : Hash) (req : Request) :
    runQuantized build blake3 cfg w weightsBlobHash req = (do
      let run ← RunState.new cfg
      let generated ← ((perTokenTokens cfg req (step build blake3 cfg w)).eval run).1
      pure (.of blake3 cfg weightsBlobHash req generated)) := by
  unfold runQuantized runQuantizedWithSink
  cases hnew : (RunState.new cfg : Res (RunState F)) with
  | error stop =>
    unfold withoutSink issueFresh
    rw [hnew, eval_bind_error (eval_mapErr_error (eval_lift _ _))]
    cases stop <;> rfl
  | ok run =>
    rcases htokens : (perTokenTokens cfg req (step build blake3 cfg w)).eval run with ⟨stop | generated, s⟩
    · have hfirst : (onFst (mapErr RunError.inference (perTokenTokens cfg req (step build blake3 cfg w))) :
          Exec (RunState F × Unit) (RunError Empty) (List UInt32)).eval (run, ()) =
            (.error (stop.map .inference), (s, ())) := by
        rw [eval_onFst, eval_mapErr_error htokens]
      unfold withoutSink issueFresh runQuantizedWithForward issue
      rw [hnew, eval_bind_ok (eval_mapErr_ok.mpr (eval_lift _ _)), eval_withLocal]
      dsimp only [id]
      rw [eval_bind_error hfirst, ok_bind, htokens]
      cases stop <;> rfl
    · rw [issueFresh_eq hnew ⟨s, htokens⟩, withoutSink_issueTokens, ok_bind, htokens]
      rfl

theorem perTokenTokens_loop {req : Request} {forward : Forward (RunState F) F} {first : UInt32} {rest : List UInt32}
    (hprompt : req.promptTokens = first :: rest) (hmemory : req.nNewTokens * 4 < 2 ^ 63)
    (hfits : req.promptTokens.length + req.nNewTokens ≤ cfg.seqLen) (hword : cfg.seqLen < wordSize) :
    perTokenTokens cfg req forward = (do
      let last ← forRange (req.promptTokens.length + req.nNewTokens) (perTokenBody forward req.promptTokens) (first, [])
      pure last.2) := by
  have hsome : req.promptTokens.length ≠ 0 := by rw [hprompt, List.length_cons]; exact Nat.succ_ne_zero _
  have hfirst : (index req.promptTokens 0 : Res UInt32) = .ok first := by rw [hprompt]; rfl
  unfold perTokenTokens
  rw [show reserveTokens req.nNewTokens = .ok () from if_pos hmemory, lift_ok, pure_bind, if_neg hsome,
    word_of_lt (by omega), lift_ok, pure_bind, if_neg (by omega), hfirst, lift_ok, pure_bind]

/-- A run that only reads its prompt survives by the checks of the turns. -/
theorem prompt_survives_iff (hw : w.Stored cfg) (hword : cfg.seqLen < wordSize) {req : Request} {first : UInt32}
    {rest : List UInt32} (hprompt : req.promptTokens = first :: rest) (hnone : req.nNewTokens = 0)
    (hfits : req.promptTokens.length ≤ cfg.seqLen) {run : RunState F} (hrun : run.CachesFor cfg 2) :
    ((perTokenTokens cfg req (step build blake3 cfg w)).eval run).1.Survives ↔
      Safe ((List.range' 0 req.promptTokens.length).flatMap fun pos =>
        turnChecks build cfg w 2 pos (req.promptTokens.getD pos 0)) := by
  have hfed : Feeds req.promptTokens 0 (first, ([] : List UInt32)).1 := fun t ht => by
    rw [hprompt] at ht
    exact Option.some.inj ht
  have hloop := (@checked_prompt F _ build blake3 cfg w 2 hw req.promptTokens hfits (first, []) hfed).before
    (f := fun last => pure last.2) (W := fun _ _ => True) (fun _ _ _ => checked_ok trivial) run hrun
  rw [perTokenTokens_loop hprompt (by omega) (by omega) hword, hnone, Nat.add_zero]
  exact hloop.survives_iff

/-- A prompt that gets to a position shows the checks of the turn there. -/
theorem safe_of_prompt {checks : Nat → List Check} {pos : Nat} (hsafe : Safe ((List.range' 0 (pos + 1)).flatMap checks))
    (hpast : ∀ earlier < pos, AllPass (checks earlier)) : Safe (checks pos) := by
  rw [List.range'_concat, List.flatMap_append, safe_append] at hsafe
  have hlast := hsafe.2 fun c hc => by
    obtain ⟨earlier, hearlier, hc⟩ := List.mem_flatMap.mp hc
    exact hpast earlier (by simpa using hearlier) c hc
  simpa using hlast

/-- Every request takes turns that are safe. -/
theorem tokens_survive (hw : w.Stored cfg) (hword : cfg.seqLen < wordSize) (hsafe : ∀ pos < cfg.seqLen,
      (∀ earlier < pos, ∃ token, AllPass (turnChecks build cfg w 2 earlier token)) →
        ∀ token, Safe (turnChecks build cfg w 2 pos token)) {req : Request}
    (hfits : req.promptTokens.length + req.nNewTokens ≤ cfg.seqLen) {run : RunState F} (hrun : run.CachesFor cfg 2) :
    ((perTokenTokens cfg req (step build blake3 cfg w)).eval run).1.Survives := by
  by_cases hmemory : req.nNewTokens * 4 < 2 ^ 63
  · cases hprompt : req.promptTokens with
    | nil =>
      unfold perTokenTokens
      rw [show reserveTokens req.nNewTokens = .ok () from if_pos hmemory, lift_ok, pure_bind,
        if_pos (by rw [hprompt]; rfl)]
      rintro stop ⟨⟩
      trivial
    | cons first rest =>
      have hloop := @turns_survive F _ build blake3 cfg w 2 hw hsafe req.promptTokens 0
        (req.promptTokens.length + req.nNewTokens) (by omega) (fun _ h => absurd h (Nat.not_lt_zero _)) (first, []) run hrun
      rw [perTokenTokens_loop hprompt hmemory hfits hword, eval_bind]
      unfold forRange
      rcases hrun' : (forFrom 0 (req.promptTokens.length + req.nNewTokens)
        (perTokenBody (step build blake3 cfg w) req.promptTokens) (first, [])).eval run with ⟨stop | last, s⟩
      · rw [hrun'] at hloop
        rintro stop' ⟨⟩
        exact hloop _ rfl
      · exact survives_ok last.2
  · -- there is no room for the new tokens: the reservation comes before the prompt
    unfold perTokenTokens
    rw [show reserveTokens req.nNewTokens = .error (.panic .capacityOverflow) from if_neg hmemory]
    rintro stop ⟨⟩
    rfl

/-- **Which models are safe to run.** -/
theorem runs_survive_iff (hw : w.Stored cfg) (hword : cfg.seqLen < wordSize) (weightsBlobHash : Hash) :
    (∀ req : Request, req.promptTokens.length + req.nNewTokens ≤ cfg.seqLen →
      (runQuantized build blake3 cfg w weightsBlobHash req).Survives) ↔ w.Guarded build cfg 2 := by
  have hnew := @RunState.checked_new F _ cfg
  constructor
  · intro hall
    refine ⟨hnew.survives_iff.mp ?_, fun hcaches pos hpos hpast token => ?_⟩
    · -- even an empty request allocates the caches
      have hempty := hall ⟨"", [], 0⟩ (Nat.zero_le _)
      rw [runQuantized_eq] at hempty
      exact (survives_bind.mp hempty).1
    · obtain ⟨run, hrun, hsized⟩ := hnew.ok_of_allPass hcaches
      choose! earlier hearlier using hpast
      -- the tokens that get to the position, and then the token
      let req : Request := ⟨"", (List.range (pos + 1)).map fun q => if q < pos then earlier q else token, 0⟩
      have hlength : req.promptTokens.length = pos + 1 := by simp [req]
      have htoken : ∀ q ≤ pos, req.promptTokens.getD q 0 = if q < pos then earlier q else token := fun q hq => by
        have hlt : q < pos + 1 := Nat.lt_succ_of_le hq
        simp [req, List.getD_eq_getElem?_getD, hlt]
      obtain ⟨first, rest, hprompt⟩ := List.exists_cons_of_length_pos (by omega : 0 < req.promptTokens.length)
      have hsurvives := hall req (by rw [hlength]; exact hpos)
      rw [runQuantized_eq, hrun, ok_bind] at hsurvives
      have hchecks := (prompt_survives_iff hw hword hprompt rfl (by omega) hsized).mp (survives_bind.mp hsurvives).1
      rw [hlength] at hchecks
      have hlast := safe_of_prompt hchecks fun q hq => by
        rw [htoken q hq.le, if_pos hq]
        exact hearlier q hq
      rwa [htoken pos (Nat.le_refl pos), if_neg (Nat.lt_irrefl pos)] at hlast
  · intro hguard req hfits
    rw [runQuantized_eq]
    refine survives_bind.mpr ⟨hnew.survives_iff.mpr hguard.caches, fun run hrun => ?_⟩
    refine survives_bind.mpr ⟨?_, fun generated _ => survives_ok _⟩
    rw [hrun] at hnew
    exact tokens_survive hw hword (hguard.turns hnew.1) hfits hnew.2

end Runs

end VitniTensor
