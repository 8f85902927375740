import VitniTensor.Inference.Binding

/-!
# The request checks

The drivers in both arithmetics of a build, with an account of the bytes they reserve for new
tokens. The sum that the check compares with `seq_len` is not checked itself, the per-token
drivers reserve before they check, and `run_with_sink` allocates its caches before that.
-/

namespace VitniTensor

open Outcome Exec

/-! ### The drivers in both arithmetics -/

/-- What a `usize` sum or product does past the word: panic, or wrap. -/
inductive Arith where
  | checked
  | wrapping
  deriving DecidableEq, Repr

def Arith.reduce : Arith → Nat → Res Nat
  | checked, n => word n
  | wrapping, n => .ok (n % wordSize)

theorem Arith.reduce_of_lt (arith : Arith) {n : Nat} (h : n < wordSize) : arith.reduce n = .ok n := by
  cases arith with
  | checked => exact word_of_lt h
  | wrapping => exact congrArg Except.ok (Nat.mod_eq_of_lt h)

/-- A sum stops with a panic if at all. -/
theorem Arith.reduce_ne_err (arith : Arith) (n : Nat) (e : Error) : arith.reduce n ≠ .error (.err e) := by
  cases arith with
  | checked =>
    change word n ≠ _
    unfold word
    split <;> simp
  | wrapping => exact fun h => nomatch h

variable {F φ σ ε : Type} [F32 F]

/-- `Vec::with_capacity(n_new_tokens)`, entered in the account. -/
def reserve (n : Nat) : Exec (φ × Nat) Error Unit := do
  lift (reserveTokens n)
  update fun s => (s.1, s.2 + n * 4)

/-- The per-token driver behind its reservation. -/
def perTokenLoopIn (arith : Arith) (cfg : Config) (req : Request) (forward : Forward φ F) :
    Exec φ Error (List UInt32) :=
  if req.promptTokens.length = 0 then fail emptyPrompt
  else do
    let total ← lift (arith.reduce (req.promptTokens.length + req.nNewTokens))
    if total > cfg.seqLen then fail tooLong
    else do
      let first ← lift (index req.promptTokens 0)
      let last ← forRange total (perTokenBody forward req.promptTokens) (first, [])
      pure last.2

def perTokenTokensIn (arith : Arith) (cfg : Config) (req : Request) (forward : Forward φ F) :
    Exec (φ × Nat) Error (List UInt32) := do
  reserve req.nNewTokens
  onFst (perTokenLoopIn arith cfg req forward)

def prefillTokensIn (arith : Arith) (cfg : Config) (req : Request)
    -- `prefill_tokens`: the one driver whose sum wraps silently in a release build.
    (prefill : List UInt32 → Exec φ Error (Tensor F)) (decode : Forward φ F) :
    Exec (φ × Nat) Error (List UInt32) := do
  let promptLen := req.promptTokens.length
  if promptLen = 0 then fail emptyPrompt
  else do
    let total ← lift (arith.reduce (promptLen + req.nNewTokens))
    if total > cfg.seqLen then fail tooLong
    else do
      let lastPrompt ← onFst (prefill req.promptTokens)
      let cur ← lift lastPrompt.pick
      reserve req.nNewTokens
      let last ← onFst (forRange req.nNewTokens (decodeBody decode promptLen) (cur, []))
      pure last.2

def runQuantizedWithForwardIn (arith : Arith) (blake3 : Blake3) (cfg : Config) (weightsBlobHash : Hash)
    (req : Request) (sink : CertSink σ ε) (tier : UInt8) (forward : Forward φ F) :
    Exec ((φ × Nat) × σ) (RunError ε) (Generation × UInt64) :=
  issue blake3 cfg weightsBlobHash req sink tier (perTokenTokensIn arith cfg req forward)

def runQuantizedWithPrefillIn (arith : Arith) (blake3 : Blake3) (cfg : Config) (weightsBlobHash : Hash)
    (req : Request) (sink : CertSink σ ε) (tier : UInt8) (prefill : List UInt32 → Exec φ Error (Tensor F))
    (decode : Forward φ F) : Exec ((φ × Nat) × σ) (RunError ε) (Generation × UInt64) :=
  issue blake3 cfg weightsBlobHash req sink tier (prefillTokensIn arith cfg req prefill decode)

def Config.kvDimIn (arith : Arith) (cfg : Config) : Res Nat := do
  let total ← arith.reduce (cfg.dim * cfg.nKvHeads)
  div total cfg.nHeads

def RunState.newIn (arith : Arith) (cfg : Config) : Res (RunState F) := do
  let rows ← arith.reduce (cfg.nLayers * cfg.seqLen)
  let kvDim ← cfg.kvDimIn arith
  let kvTotal ← arith.reduce (rows * kvDim)
  let keyCache ← zeroVec kvTotal
  let valueCache ← zeroVec kvTotal
  pure ⟨keyCache, valueCache, 2⟩

/-- A computation that owns `init` and shares the account. -/
def withFresh {α : Type} (init : φ) (m : Exec ((φ × Nat) × σ) (RunError ε) α) : Exec (Nat × σ) (RunError ε) α :=
  ExceptT.mk fun s =>
    let r := m.eval ((init, s.1), s.2)
    (r.1, (r.2.1.2, r.2.2))

omit [F32 F] in
theorem eval_withFresh {α : Type} {init : φ} {m : Exec ((φ × Nat) × σ) (RunError ε) α} {k k' : Nat} {w w' : σ}
    {out : Outcome (RunError ε) α} :
    (withFresh init m).eval (k, w) = (out, (k', w')) ↔ ∃ t, m.eval ((init, k), w) = (out, ((t, k'), w')) := by
  change ((m.eval ((init, k), w)).1, (m.eval ((init, k), w)).2.1.2, (m.eval ((init, k), w)).2.2) = _ ↔ _
  rcases m.eval ((init, k), w) with ⟨out', ⟨⟨t, k''⟩, w''⟩⟩
  simp

/-- `run_with_sink`, for any `forward::step`. -/
def runWithSinkIn (arith : Arith) (blake3 : Blake3) (cfg : Config) (weightsBlobHash : Hash) (req : Request)
    (sink : CertSink σ ε) (tier : UInt8) (forward : Forward (RunState F) F) :
    Exec (Nat × σ) (RunError ε) (Generation × UInt64) := do
  let run ← mapErr RunError.inference (lift (RunState.newIn arith cfg))
  withFresh run (runQuantizedWithForwardIn arith blake3 cfg weightsBlobHash req sink tier forward)

/-! ### They are the drivers with an account -/

section Account

/-- The state beside any account. -/
abbrev Beside (a : φ × Nat) (b : φ) : Prop := a.1 = b

omit [F32 F] in
private theorem onFst_sim {α : Type} (m : Exec φ Error α) :
    Sim Beside Eq (onFst m : Exec (φ × Nat) Error α) m := by
  rintro ⟨s, k⟩ _ rfl
  refine ⟨?_, rfl⟩
  rw [eval_onFst]
  cases (m.eval s).1 with
  | ok a => exact .ok rfl
  | error stop => exact .error stop

private theorem lift_sim {α : Type} (x : Res α) :
    Sim Beside Eq (lift x : Exec (φ × Nat) Error α) (lift x : Exec φ Error α) := by
  refine Sim.lift ?_
  cases x with
  | ok a => exact .ok rfl
  | error stop => exact .error stop

private theorem reserve_sim (n : Nat) :
    Sim Beside Eq (reserve n : Exec (φ × Nat) Error Unit) (lift (reserveTokens n)) := by
  rintro ⟨s, k⟩ _ rfl
  unfold reserve
  rw [eval_bind, eval_lift, eval_lift]
  cases reserveTokens n with
  | ok u => exact ⟨.ok rfl, rfl⟩
  | error stop => exact ⟨.error stop, rfl⟩

theorem perTokenTokensIn_checked (cfg : Config) (req : Request) (forward : Forward φ F) :
    Sim Beside Eq (perTokenTokensIn .checked cfg req forward) (perTokenTokens cfg req forward) := by
  refine (reserve_sim req.nNewTokens).bind fun _ _ _ => ?_
  exact onFst_sim (perTokenLoopIn .checked cfg req forward)

theorem prefillTokensIn_checked (cfg : Config) (req : Request)
    (prefill : List UInt32 → Exec φ Error (Tensor F)) (decode : Forward φ F) :
    Sim Beside Eq (prefillTokensIn .checked cfg req prefill decode) (prefillTokens cfg req prefill decode) := by
  -- Both drivers run the same calls in the same order; only the account of reservations is
  -- added.
  unfold prefillTokensIn prefillTokens
  dsimp only
  split
  next => exact lift_sim (Outcome.err emptyPrompt)
  next =>
    refine (lift_sim (word (req.promptTokens.length + req.nNewTokens))).bind ?_
    rintro total _ rfl
    split
    next => exact lift_sim (Outcome.err tooLong)
    next =>
      refine (onFst_sim (prefill req.promptTokens)).bind ?_
      rintro lastPrompt _ rfl
      refine (lift_sim lastPrompt.pick).bind ?_
      rintro cur _ rfl
      refine (reserve_sim req.nNewTokens).bind fun _ _ _ => ?_
      refine (onFst_sim (forRange req.nNewTokens (decodeBody decode req.promptTokens.length) (cur, []))).bind ?_
      rintro last _ rfl
      exact Sim.pure rfl

omit [F32 F] in
private theorem issue_sim {blake3 : Blake3} {cfg : Config} {weightsBlobHash : Hash} {req : Request}
    {sink : CertSink σ ε} {tier : UInt8} {tokens : Exec (φ × Nat) Error (List UInt32)}
    {tokens' : Exec φ Error (List UInt32)} (h : Sim Beside Eq tokens tokens') :
    Sim (fun (a : (φ × Nat) × σ) (b : φ × σ) => Beside a.1 b.1 ∧ a.2 = b.2) Eq
      (issue blake3 cfg weightsBlobHash req sink tier tokens)
      (issue blake3 cfg weightsBlobHash req sink tier tokens') := by
  refine (h.mapErr RunError.inference).onFst.bind ?_
  rintro generated _ rfl
  refine (Sim.onSnd _).bind ?_
  rintro issued _ rfl
  exact Sim.pure rfl

section Checked

variable (blake3 : Blake3) (cfg : Config) (weightsBlobHash : Hash) (req : Request) (sink : CertSink σ ε)
  (tier : UInt8)

theorem runQuantizedWithForwardIn_checked (forward : Forward φ F) :
    Sim (fun (a : (φ × Nat) × σ) (b : φ × σ) => Beside a.1 b.1 ∧ a.2 = b.2) Eq
      (runQuantizedWithForwardIn .checked blake3 cfg weightsBlobHash req sink tier forward)
      (runQuantizedWithForward blake3 cfg weightsBlobHash req sink tier forward) :=
  issue_sim (perTokenTokensIn_checked cfg req forward)

theorem runQuantizedWithPrefillIn_checked (prefill : List UInt32 → Exec φ Error (Tensor F))
    (decode : Forward φ F) :
    Sim (fun (a : (φ × Nat) × σ) (b : φ × σ) => Beside a.1 b.1 ∧ a.2 = b.2) Eq
      (runQuantizedWithPrefillIn .checked blake3 cfg weightsBlobHash req sink tier prefill decode)
      (runQuantizedWithPrefill blake3 cfg weightsBlobHash req sink tier prefill decode) :=
  issue_sim (prefillTokensIn_checked cfg req prefill decode)

theorem runWithSinkIn_checked (weights : Weights F) :
    Sim (fun (a : Nat × σ) (b : σ) => a.2 = b) Eq
      (runWithSinkIn .checked blake3 cfg weightsBlobHash req sink tier (DensePass.step cfg weights))
      (runWithSink blake3 cfg weights weightsBlobHash req sink tier) := by
  have hfresh : Sim (fun (a : Nat × σ) (b : σ) => a.2 = b) Eq
      (lift (RunState.newIn .checked cfg) : Exec (Nat × σ) Error (RunState F))
      (lift (RunState.new cfg) : Exec σ Error (RunState F)) := by
    refine Sim.lift ?_
    change Alike Eq (RunState.new cfg) (RunState.new cfg)
    cases (RunState.new cfg : Res (RunState F)) with
    | ok run => exact .ok rfl
    | error stop => exact .error stop
  -- The run state is made first, by the same function on both sides.
  refine (hfresh.mapErr RunError.inference).bind ?_
  rintro run _ rfl ⟨k, w⟩ _ rfl
  obtain ⟨hsame, -, hsink⟩ := runQuantizedWithForwardIn_checked blake3 cfg weightsBlobHash req sink tier
    (DensePass.step cfg weights) ((run, k), w) (run, w) ⟨rfl, rfl⟩
  exact ⟨hsame, hsink⟩

end Checked

end Account

/-! ### Refusals -/

/-- A run that ends in an error of the inference stopped in the token loop. -/
theorem issue_refused_iff {blake3 : Blake3} {cfg : Config} {weightsBlobHash : Hash} {req : Request}
    {sink : CertSink σ ε} {tier : UInt8} {tokens : Exec φ Error (List UInt32)} {s s' : φ} {w w' : σ} {e : Error} :
    (issue blake3 cfg weightsBlobHash req sink tier tokens).eval (s, w) =
        (.error (.err (.inference e)), (s', w')) ↔
      tokens.eval s = (.error (.err e), s') ∧ w' = w := by
  unfold issue
  dsimp only
  rw [eval_bind, eval_onFst, eval_mapErr]
  rcases tokens.eval s with ⟨stop | generated, t⟩
  · cases stop with
    | err e' =>
      simp only [Prod.mk.injEq, Except.error.injEq, Stop.err.injEq, RunError.inference.injEq]
      constructor
      · rintro ⟨rfl, rfl, rfl⟩
        exact ⟨⟨rfl, rfl⟩, rfl⟩
      · rintro ⟨⟨rfl, rfl⟩, rfl⟩
        exact ⟨rfl, rfl, rfl⟩
    | panic p => simp
  · -- the sink's errors are not the inference's
    dsimp only
    rw [eval_bind, eval_onSnd, eval_mapErr]
    rcases (CertBuilder.finalizeWithSink blake3 _ sink tier).eval w with ⟨stop | issued, u⟩
    · cases stop <;> simp
    · simp

section Refusal

variable (arith : Arith) (blake3 : Blake3) (cfg : Config) (weightsBlobHash : Hash) (req : Request)

/-- Whatever closure and sink it is given, the driver returns an invalid shape, their states have
not moved, and nothing is reserved for new tokens. -/
def ForwardRefuses : Prop :=
  ∀ (F φ σ ε : Type) [F32 F] (forward : Forward φ F) (sink : CertSink σ ε) (tier : UInt8) (s : φ) (w : σ),
    ∃ why, (runQuantizedWithForwardIn arith blake3 cfg weightsBlobHash req sink tier forward).eval ((s, 0), w) =
      (.error (.err (.inference (.invalidShape why))), ((s, 0), w))

def PrefillRefuses : Prop :=
  ∀ (F φ σ ε : Type) [F32 F] (prefill : List UInt32 → Exec φ Error (Tensor F)) (decode : Forward φ F)
    (sink : CertSink σ ε) (tier : UInt8) (s : φ) (w : σ),
    ∃ why, (runQuantizedWithPrefillIn arith blake3 cfg weightsBlobHash req sink tier prefill decode).eval
      ((s, 0), w) = (.error (.err (.inference (.invalidShape why))), ((s, 0), w))

def SinkRefuses : Prop :=
  ∀ (F σ ε : Type) [F32 F] (forward : Forward (RunState F) F) (sink : CertSink σ ε) (tier : UInt8) (w : σ),
    ∃ why, (runWithSinkIn arith blake3 cfg weightsBlobHash req sink tier forward).eval (0, w) =
      (.error (.err (.inference (.invalidShape why))), (0, w))

/-- A request that no driver should start on. -/
def Request.OutOfBounds (req : Request) (cfg : Config) : Prop :=
  req.promptTokens = [] ∨ cfg.seqLen < req.promptTokens.length + req.nNewTokens

def EnforcesBounds : Prop :=
  req.OutOfBounds cfg → SinkRefuses arith blake3 cfg weightsBlobHash req ∧
    ForwardRefuses arith blake3 cfg weightsBlobHash req ∧ PrefillRefuses arith blake3 cfg weightsBlobHash req

variable {arith blake3 cfg weightsBlobHash req}

theorem perTokenLoopIn_refuses (hbad : req.OutOfBounds cfg)
    (hsum : req.promptTokens.length + req.nNewTokens < wordSize) (forward : Forward φ F) :
    ∃ why, perTokenLoopIn arith cfg req forward = fail (.invalidShape why) := by
  unfold perTokenLoopIn
  split
  next => exact ⟨_, rfl⟩
  next hsome =>
    rcases hbad with hnil | hlong
    · exact absurd (by rw [hnil]; rfl) hsome
    · rw [arith.reduce_of_lt hsum, lift_ok, pure_bind, if_pos hlong]
      exact ⟨_, rfl⟩

/-- Every error of the token loop comes after the reservation. -/
theorem perTokenTokensIn_account {forward : Forward φ F} {s t : φ} {k k' : Nat} {e : Error}
    (h : (perTokenTokensIn arith cfg req forward).eval (s, k) = (.error (.err e), (t, k'))) :
    k' = k + req.nNewTokens * 4 := by
  unfold perTokenTokensIn reserve at h
  by_cases hfits : req.nNewTokens * 4 < 2 ^ 63
  · have hreserved : reserveTokens req.nNewTokens = .ok () := if_pos hfits
    rw [hreserved] at h
    exact (congrArg (fun r => r.2.2) h).symm
  · have hpanic : reserveTokens req.nNewTokens = .error (.panic .capacityOverflow) := if_neg hfits
    rw [hpanic] at h
    cases h

/-- The per-token driver reserves first: only a request for no tokens is refused in silence. -/
theorem forwardRefuses_iff (hbad : req.OutOfBounds cfg) (hprompt : req.promptTokens.length < wordSize) :
    ForwardRefuses arith blake3 cfg weightsBlobHash req ↔ req.nNewTokens = 0 := by
  constructor
  · intro hrefuses
    -- A forward pass that never works: the refusal has to come from the driver itself.
    obtain ⟨why, hrun⟩ := hrefuses Cost Unit Unit Empty (fun _ _ => fail .outOfMemory) nullSink 0 () ()
    obtain ⟨htokens, -⟩ := issue_refused_iff.mp hrun
    -- The reservation precedes the check, so a refused run has none only for no tokens.
    have haccount := perTokenTokensIn_account htokens
    omega
  -- Without new tokens, the loop refuses and nothing was reserved.
  · intro hzero F φ σ ε _ forward sink tier s w
    have hloop : ∃ why, perTokenLoopIn arith cfg req forward = fail (.invalidShape why) :=
      perTokenLoopIn_refuses hbad (by omega) forward
    obtain ⟨why, hloop⟩ := hloop
    refine ⟨why, issue_refused_iff.mpr ⟨?_, rfl⟩⟩
    unfold perTokenTokensIn reserve
    rw [hloop, hzero]
    rfl

/-- The prefill driver reserves behind its check, which the sum can slip past by overflowing. -/
theorem prefillRefuses_iff :
    PrefillRefuses arith blake3 cfg weightsBlobHash req ↔
      req.promptTokens = [] ∨ ∃ total, arith.reduce (req.promptTokens.length + req.nNewTokens) = .ok total ∧
        cfg.seqLen < total := by
  constructor
  · intro hrefuses
    -- Again a pass that never works; the tests before it decide.
    obtain ⟨why, hrun⟩ := hrefuses Cost Unit Unit Empty (fun _ => fail .outOfMemory)
      (fun _ _ => fail .outOfMemory) nullSink 0 () ()
    obtain ⟨htokens, -⟩ := issue_refused_iff.mp hrun
    unfold prefillTokensIn at htokens
    dsimp only at htokens
    split at htokens
    next hnone => exact .inl (List.length_eq_zero_iff.mp hnone)
    next =>
      cases htotal : arith.reduce (req.promptTokens.length + req.nNewTokens) with
      -- An overflowing sum is a panic, not a refusal.
      | error stop =>
        rw [htotal] at htokens
        have hstop : stop = .err (.invalidShape why) := Except.error.inj (congrArg Prod.fst htokens)
        rw [hstop] at htotal
        exact absurd htotal (arith.reduce_ne_err _ _)
      | ok total =>
        rw [htotal, lift_ok, pure_bind] at htokens
        split at htokens
        next hlong => exact .inr ⟨total, rfl, hlong⟩
        next => cases htokens
  -- Each of the two checks is made before the prefill.
  · rintro hrefused F φ σ ε _ prefill decode sink tier s w
    have hloop : ∃ why, prefillTokensIn arith cfg req prefill decode = fail (.invalidShape why) := by
      unfold prefillTokensIn
      dsimp only
      split
      next => exact ⟨_, rfl⟩
      next hsome =>
        rcases hrefused with hnil | ⟨total, htotal, hlong⟩
        · exact absurd (by rw [hnil]; rfl) hsome
        · rw [htotal, lift_ok, pure_bind, if_pos hlong]
          exact ⟨_, rfl⟩
    obtain ⟨why, hloop⟩ := hloop
    refine ⟨why, issue_refused_iff.mpr ⟨?_, rfl⟩⟩
    rw [hloop]
    rfl

/-- The caches of a configuration exist. -/
structure Config.CachesFit (cfg : Config) : Prop where
  rows : cfg.nLayers * cfg.seqLen < wordSize
  width : cfg.dim * cfg.nKvHeads < wordSize
  heads : 0 < cfg.nHeads
  memory : cfg.nLayers * cfg.seqLen * (cfg.dim * cfg.nKvHeads / cfg.nHeads) * 4 < 2 ^ 63

theorem RunState.newIn_ok (h : cfg.CachesFit) : ∃ run : RunState F, RunState.newIn arith cfg = .ok run := by
  have hmemory := h.memory
  have hzeros : ∃ cache : List F, zeroVec (cfg.nLayers * cfg.seqLen * (cfg.dim * cfg.nKvHeads / cfg.nHeads)) =
      .ok cache := ⟨_, if_pos hmemory⟩
  obtain ⟨cache, hcache⟩ := hzeros
  unfold RunState.newIn Config.kvDimIn
  rw [arith.reduce_of_lt h.rows, ok_bind, arith.reduce_of_lt h.width, ok_bind, div_of_pos h.heads, ok_bind,
    arith.reduce_of_lt (by unfold wordSize; omega), ok_bind, hcache, ok_bind, ok_bind]
  exact ⟨_, rfl⟩

/-- An allocation panics or succeeds. -/
theorem RunState.newIn_ne_err (e : Error) : (RunState.newIn arith cfg : Res (RunState F)) ≠ .error (.err e) := by
  -- Neither a division nor an allocation ever returns an error; both panic.
  have hdiv : ∀ a b : Nat, (div a b : Res Nat) ≠ .error (.err e) := by
    intro a b
    unfold div
    split <;> simp
  have hzeros : ∀ n, (zeroVec n : Res (List F)) ≠ .error (.err e) := by
    intro n
    unfold zeroVec
    split <;> simp
  intro h
  unfold RunState.newIn Config.kvDimIn at h
  -- The steps of `new` one by one: none of them is an error.
  rcases bind_eq_error.mp h with h | ⟨rows, -, h⟩
  · exact arith.reduce_ne_err _ _ h
  rcases bind_eq_error.mp h with h | ⟨width, -, h⟩
  · rcases bind_eq_error.mp h with h | ⟨product, -, h⟩
    · exact arith.reduce_ne_err _ _ h
    · exact hdiv _ _ h
  rcases bind_eq_error.mp h with h | ⟨total, -, h⟩
  · exact arith.reduce_ne_err _ _ h
  rcases bind_eq_error.mp h with h | ⟨keys, -, h⟩
  · exact hzeros _ h
  rcases bind_eq_error.mp h with h | ⟨values, -, h⟩
  · exact hzeros _ h
  · cases h

theorem RunState.cachesFit_of_new {run : RunState F} (h : RunState.newIn .checked cfg = .ok run) :
    cfg.CachesFit := by
  unfold RunState.newIn Config.kvDimIn at h
  obtain ⟨rows, hrows, h⟩ := bind_eq_ok.mp h
  obtain ⟨width, hwidth, h⟩ := bind_eq_ok.mp h
  obtain ⟨total, htotal, h⟩ := bind_eq_ok.mp h
  obtain ⟨cache, hcache, -⟩ := bind_eq_ok.mp h
  obtain ⟨product, hproduct, hquot⟩ := bind_eq_ok.mp hwidth
  obtain ⟨hrowsFit, rfl⟩ := word_eq_ok.mp hrows
  obtain ⟨hproductFit, rfl⟩ := word_eq_ok.mp hproduct
  obtain ⟨hheads, rfl⟩ := div_eq_ok.mp hquot
  obtain ⟨-, rfl⟩ := word_eq_ok.mp htotal
  refine ⟨hrowsFit, hproductFit, hheads, ?_⟩
  -- The cache was allocated, so it has at most 2 ^ 63 bytes.
  unfold zeroVec at hcache
  split at hcache
  next hmemory => exact hmemory
  next => cases hcache

/-- `run_with_sink` is the per-token driver behind the allocation of its caches. -/
theorem sinkRefuses_iff (hbad : req.OutOfBounds cfg) (hprompt : req.promptTokens.length < wordSize) :
    (∀ arith, SinkRefuses arith blake3 cfg weightsBlobHash req) ↔ req.nNewTokens = 0 ∧ cfg.CachesFit := by
  constructor
  -- In the checked build, with a pass that never works.
  · intro hrefuses
    obtain ⟨why, hrun⟩ := hrefuses .checked Cost Unit Empty (fun _ _ => fail .outOfMemory) nullSink 0 ()
    unfold runWithSinkIn at hrun
    rw [eval_bind, eval_mapErr, eval_lift] at hrun
    -- The run state comes before any check: if its caches do not fit, it panics.
    cases hnew : (RunState.newIn .checked cfg : Res (RunState Cost)) with
    | error stop =>
      rw [hnew] at hrun
      cases stop with
      | err e => exact absurd hnew (RunState.newIn_ne_err (F := Cost) e)
      | panic p => cases hrun
    | ok run =>
      rw [hnew] at hrun
      obtain ⟨t, hforward⟩ := eval_withFresh.mp hrun
      obtain ⟨htokens, -⟩ := issue_refused_iff.mp hforward
      have hreserved := perTokenTokensIn_account htokens
      exact ⟨by omega, RunState.cachesFit_of_new hnew⟩
  · rintro ⟨hzero, hfit⟩ arith F σ ε _ forward sink tier w
    have hrun : ∃ run : RunState F, RunState.newIn arith cfg = .ok run := RunState.newIn_ok hfit
    obtain ⟨run, hrun⟩ := hrun
    have hrefuses : ForwardRefuses arith blake3 cfg weightsBlobHash req := (forwardRefuses_iff hbad hprompt).mpr hzero
    obtain ⟨why, hforward⟩ := hrefuses F (RunState F) σ ε forward sink tier run w
    refine ⟨why, ?_⟩
    unfold runWithSinkIn
    rw [hrun]
    exact eval_withFresh.mpr ⟨run, hforward⟩

/-- **When the bounds are enforced.** In both arithmetics the three drivers refuse every request out
of bounds, with nothing called and nothing reserved, exactly when there is no such request or it
asks for no tokens and the caches exist. -/
theorem bounds_enforced_iff (blake3 : Blake3) (cfg : Config) (weightsBlobHash : Hash) (req : Request)
    (hprompt : req.promptTokens.length * 4 < 2 ^ 63) :
    (∀ arith, EnforcesBounds arith blake3 cfg weightsBlobHash req) ↔
      (req.promptTokens ≠ [] ∧ req.promptTokens.length + req.nNewTokens ≤ cfg.seqLen) ∨
        req.nNewTokens = 0 ∧ cfg.CachesFit := by
  have hsmall : req.promptTokens.length < wordSize := by unfold wordSize; omega
  constructor
  · intro henforced
    -- If the request is within bounds there is nothing to enforce.
    by_cases hbad : req.OutOfBounds cfg
    · exact .inr ((sinkRefuses_iff hbad hsmall).mp fun arith => (henforced arith hbad).1)
    · unfold Request.OutOfBounds at hbad
      exact .inl ⟨fun hnil => hbad (.inl hnil), Nat.not_lt.mp fun hlong => hbad (.inr hlong)⟩
  -- In bounds, or nothing to generate on caches that fit.
  · rintro (⟨hsome, hshort⟩ | ⟨hzero, hfit⟩) arith hbad
    · rcases hbad with hnil | hlong
      · exact absurd hnil hsome
      · exact absurd hlong (Nat.not_lt.mpr hshort)
    -- With no new tokens the sum is the prompt's length, which no arithmetic wraps.
    · have hsum : arith.reduce (req.promptTokens.length + req.nNewTokens) =
          .ok (req.promptTokens.length + req.nNewTokens) := arith.reduce_of_lt (by omega)
      refine ⟨(sinkRefuses_iff hbad hsmall).mpr ⟨hzero, hfit⟩ arith, (forwardRefuses_iff hbad hsmall).mpr hzero,
        prefillRefuses_iff.mpr ?_⟩
      exact hbad.imp_right fun hlong => ⟨_, hsum, hlong⟩

end Refusal

/-- An empty request, refused in both arithmetics. -/
theorem bounds_enforced_iff_empty :
    EnforcesBounds .checked leadingBytes tinyConfig (leadingBytes []) ⟨"m", [], 0⟩ ∧
      EnforcesBounds .wrapping leadingBytes tinyConfig (leadingBytes []) ⟨"m", [], 0⟩ := by
  have henforced := (bounds_enforced_iff leadingBytes tinyConfig (leadingBytes []) ⟨"m", [], 0⟩ (by decide)).mpr
    (.inr ⟨rfl, by decide, by decide, by decide, by decide⟩)
  exact ⟨henforced .checked, henforced .wrapping⟩

/-- A sum that wraps lets the prefill run, the same sum panics where it is checked, and the
per-token driver has reserved four mebibytes when it finds the request too long. -/
theorem bounds_not_enforced :
    ((runQuantizedWithPrefillIn .wrapping leadingBytes tinyConfig (leadingBytes []) ⟨"m", [1], 2 ^ 64 - 1⟩ nullSink 0
        (fun _ => (fail .outOfMemory : Exec Unit Error (Tensor Cost))) fun _ _ => fail .outOfMemory).eval
          (((), 0), ())).1 = .error (.err (.inference .outOfMemory)) ∧
      ((runQuantizedWithPrefillIn .checked leadingBytes tinyConfig (leadingBytes []) ⟨"m", [1], 2 ^ 64 - 1⟩ nullSink 0
        (fun _ => (fail .outOfMemory : Exec Unit Error (Tensor Cost))) fun _ _ => fail .outOfMemory).eval
          (((), 0), ())).1 = .error (.panic .overflow) ∧
      (runQuantizedWithForwardIn .checked leadingBytes tinyConfig (leadingBytes []) ⟨"m", [1], 2 ^ 20⟩ nullSink 0
        (fun _ _ => (fail .outOfMemory : Exec Unit Error (Tensor Cost)))).eval (((), 0), ()) =
          (.error (.err (.inference tooLong)), (((), 2 ^ 22), ())) ∧
      ∀ arith, ¬EnforcesBounds arith leadingBytes tinyConfig (leadingBytes []) ⟨"m", [1], 2 ^ 64 - 1⟩ := by
  -- 2 ^ 64 - 1 new tokens behind a prompt of one: the wrapped sum is zero.
  refine ⟨rfl, rfl, rfl, fun arith henforced => ?_⟩
  obtain ⟨-, -, hprefill⟩ := henforced (.inr (by decide))
  obtain ⟨why, hrun⟩ := hprefill Cost Unit Unit Empty (fun _ => fail .outOfMemory) (fun _ _ => fail .outOfMemory)
    nullSink 0 () ()
  cases arith with
  | checked => exact nomatch congrArg Prod.fst hrun
  | wrapping => exact nomatch congrArg Prod.fst hrun

end VitniTensor
