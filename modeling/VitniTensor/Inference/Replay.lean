import VitniTensor.Inference.Binding

/-!
# Replaying the tokens of a receipt

A verifier replays a run by feeding tokens at positions 0, 1, … and comparing the argmax of the
logits with the next token. The drivers feed the argmax behind the prompt, but they record from
the position after it on: the tokens of a receipt are one consecutive sequence only with that
token put between the prompt and the output.
-/

namespace VitniTensor

open Outcome Exec

section Feeding

variable {F φ : Type} [F32 F]

/-- Feeding `tokens` from state `s` ends in logits whose argmax is `next`. -/
def Picks (forward : Forward φ F) (s : φ) (tokens : List UInt32) (next : UInt32) : Prop :=
  ∃ logits s', (feedPrompt forward tokens).eval s = (.ok logits, s') ∧ logits.pick = .ok next

/-- Every output token follows from the prompt and the output tokens before it. -/
def ReplaysDirectly (forward : Forward φ F) (s : φ) (prompt generated : List UInt32) : Prop :=
  ∀ i (h : i < generated.length), Picks forward s (prompt ++ generated.take i) generated[i]

/-- The same with the token that follows the prompt, which is fed and not recorded. -/
def ReplaysBehindFirst (forward : Forward φ F) (s : φ) (prompt generated : List UInt32) : Prop :=
  ∀ i (h : i < generated.length), ∃ first, Picks forward s prompt first ∧
    Picks forward s (prompt ++ first :: generated.take i) generated[i]

omit [F32 F] in
theorem feedPrompt_singleton (forward : Forward φ F) (token : UInt32) :
    feedPrompt forward [token] = forward token 0 := by
  unfold feedPrompt
  have hhead : (index [token] 0 : Res UInt32) = .ok token := rfl
  rw [hhead, lift_ok, pure_bind]
  exact bind_pure _

omit [F32 F] in
/-- One more token. -/
theorem feedPrompt_snoc (forward : Forward φ F) {tokens : List UInt32} (hsome : tokens ≠ []) (token : UInt32) :
    feedPrompt forward (tokens ++ [token]) =
      feedPrompt forward tokens >>= fun _ => forward token tokens.length := by
  obtain ⟨first, rest, rfl⟩ := List.exists_cons_of_ne_nil hsome
  obtain ⟨m, hm⟩ : ∃ m, rest.length = m := ⟨_, rfl⟩
  have hfront : ∀ k ≤ m, ∀ logits : Tensor F,
      forFrom 1 k (fun pos _ => do
        let token ← lift (index (first :: rest ++ [token]) pos)
        forward token pos) logits =
      forFrom 1 k (fun pos _ => do
        let token ← lift (index (first :: rest) pos)
        forward token pos) logits := by
    intro k
    induction k with
    | zero => exact fun _ _ => rfl
    | succ k ih =>
      intro hk logits
      have hin : 1 + k < (first :: rest).length := by rw [List.length_cons]; omega
      have hcell : (index (first :: rest ++ [token]) (1 + k) : Res UInt32) = index (first :: rest) (1 + k) := by
        unfold index
        rw [List.getElem?_append_left hin]
      rw [forFrom_succ_last, forFrom_succ_last, ih (by omega) logits, hcell]
  have hlast : (index (first :: rest ++ [token]) (1 + m) : Res UInt32) = .ok token := by
    refine index_eq_ok.mpr ?_
    rw [List.getElem?_append_right (by rw [List.length_cons]; omega), List.length_cons, hm, Nat.add_comm,
      Nat.sub_self]
    rfl
  have hsize : (first :: rest ++ [token]).length - 1 = m + 1 := by simp [hm]
  have hsize' : (first :: rest).length - 1 = m := by simp [hm]
  have hpos : (first :: rest).length = 1 + m := by rw [List.length_cons, hm, Nat.add_comm]
  have hhead : (index (first :: rest ++ [token]) 0 : Res UInt32) = .ok first := rfl
  have hhead' : (index (first :: rest) 0 : Res UInt32) = .ok first := rfl
  unfold feedPrompt
  rw [hsize, hsize', hhead, hhead', hpos]
  simp only [lift_ok, pure_bind, bind_assoc]
  refine bind_congr fun logits => ?_
  rw [forFrom_succ_last, hfront m (Nat.le_refl m) logits]
  refine bind_congr fun _ => ?_
  rw [hlast, lift_ok, pure_bind]

omit [F32 F] in
/-- Calls at consecutive positions feed their tokens. -/
theorem feedPrompt_run {forward : Forward φ F} {run : Nat → φ} {fed : Nat → UInt32} {logits : Nat → Tensor F}
    {m : Nat} (hcalls : ∀ pos ≤ m, (forward (fed pos) pos).eval (run pos) = (.ok (logits pos), run (pos + 1))) :
    (feedPrompt forward ((List.range (m + 1)).map fed)).eval (run 0) = (.ok (logits m), run (m + 1)) := by
  induction m with
  | zero => exact (congrArg (·.eval (run 0)) (feedPrompt_singleton forward (fed 0))).trans (hcalls 0 (Nat.le_refl 0))
  | succ m ih =>
    have hsome : (List.range (m + 1)).map fed ≠ [] := by simp
    rw [List.range_succ, List.map_append, List.map_singleton, feedPrompt_snoc forward hsome,
      eval_bind_ok (ih fun pos hpos => hcalls pos (by omega)), List.length_map, List.length_range]
    exact hcalls (m + 1) (Nat.le_refl _)

/-! ### One token at a time -/

theorem Decoded.replays {forward : Forward φ F} {prompt generated : List UInt32} {s : φ}
    (hprompt : prompt ≠ []) (h : Decoded forward prompt s generated) :
    ReplaysBehindFirst forward s prompt generated := by
  obtain ⟨run, fed, logits, rfl, hcalls, hforced, hchosen, hrecorded⟩ := h
  obtain ⟨m, hm⟩ : ∃ m, prompt.length = m + 1 := Nat.exists_eq_succ_of_ne_zero (by simpa using hprompt)
  intro i hi
  have hfed : ∀ k (hk : k < generated.length), k < i → fed (prompt.length + k + 1) = generated[k] := by
    intro k hk hki
    have hpick := hchosen (prompt.length + k) (by omega) (by omega)
    rw [hrecorded k (by omega)] at hpick
    exact (Except.ok.inj hpick).symm
  have hfront : (List.range (m + 1)).map fed = prompt := by
    refine List.ext_getElem (by simp [hm]) fun j hj hj' => ?_
    rw [List.getElem_map, List.getElem_range, hforced j hj']
  have hwhole : (List.range (prompt.length + i + 1)).map fed =
      prompt ++ fed prompt.length :: generated.take i := by
    have hsplit : prompt.length + i + 1 = (m + 1) + (i + 1) := by omega
    rw [hsplit, List.range_add, List.map_append, hfront]
    refine congrArg (prompt ++ ·) (List.ext_getElem ?_ fun j hj hj' => ?_)
    · simp only [List.length_map, List.length_range, List.length_cons, List.length_take]
      omega
    · rw [List.getElem_map, List.getElem_map, List.getElem_range, ← hm]
      cases j with
      | zero => rfl
      | succ k =>
        simp only [List.length_map, List.length_range] at hj
        rw [List.getElem_cons_succ, List.getElem_take, ← Nat.add_assoc, hfed k (by omega) (by omega)]
  refine ⟨fed prompt.length, ⟨logits m, run (m + 1), ?_, ?_⟩, 
    ⟨logits (prompt.length + i), run (prompt.length + i + 1), ?_, hrecorded i hi⟩⟩
  · rw [← hfront]
    exact feedPrompt_run fun pos hpos => hcalls pos (by omega)
  · rw [hm]
    exact hchosen m (by omega) (by omega)
  · rw [← hwhole]
    exact feedPrompt_run fun pos hpos => hcalls pos (by omega)

/-! ### The prompt at once -/

/-- The decode loop after `i` turns: what was fed, and what was recorded. -/
private theorem decodeLoop_replays {forward : Forward φ F} {prompt : List UInt32} {s t : φ} {first : UInt32}
    (hprompt : prompt ≠ []) {lastPrompt : Tensor F}
    (hprefill : (feedPrompt forward prompt).eval s = (.ok lastPrompt, t)) {n : Nat} {final : UInt32 × List UInt32}
    {t' : φ} (hloop : (forRange n (decodeBody forward prompt.length) (first, [])).eval t = (.ok final, t')) :
    ∀ i (h : i < final.2.length), Picks forward s (prompt ++ first :: final.2.take i) final.2[i] := by
  obtain ⟨past, hstart, hstop, hsteps⟩ := history hloop
  -- `dropLast` leaves out the token that is still to be fed
  have hinv : ∀ i ≤ n, (past i).1.2.length = i ∧
      (first :: (past i).1.2).getLast? = some (past i).1.1 ∧
      (∃ logits, (feedPrompt forward (prompt ++ (first :: (past i).1.2).dropLast)).eval s = (.ok logits, (past i).2)) ∧
      ∀ j (h : j < (past i).1.2.length), Picks forward s (prompt ++ first :: (past i).1.2.take j) (past i).1.2[j] := by
    intro i
    induction i with
    | zero =>
      intro _
      rw [hstart]
      exact ⟨rfl, rfl, ⟨lastPrompt, by simpa using hprefill⟩, fun j hj => absurd hj (Nat.not_lt_zero j)⟩
    | succ i ih =>
      intro hi
      obtain ⟨hlength, hlast, ⟨before, hfed⟩, hpicks⟩ := ih (by omega)
      have hturn := hsteps i (by omega)
      rw [Nat.zero_add] at hturn
      obtain ⟨logits, u, hdecode, hturn⟩ := eval_bind_eq_ok.mp hturn
      obtain ⟨picked, u', hpick, hturn⟩ := eval_bind_eq_ok.mp hturn
      rw [eval_lift, Prod.mk.injEq] at hpick
      obtain ⟨hpick, rfl⟩ := hpick
      obtain ⟨hnext, hstate⟩ := Prod.mk.inj hturn
      have hpair := (Except.ok.inj hnext).symm
      have hall : (first :: (past i).1.2).dropLast ++ [(past i).1.1] = first :: (past i).1.2 :=
        List.dropLast_append_getLast? _ hlast
      have hdone : (feedPrompt forward (prompt ++ first :: (past i).1.2)).eval s = (.ok logits, (past (i + 1)).2) := by
        have hsome : prompt ++ (first :: (past i).1.2).dropLast ≠ [] := by simp [hprompt]
        have hsize : (prompt ++ (first :: (past i).1.2).dropLast).length = prompt.length + i := by simp [hlength]
        rw [← hall, ← List.append_assoc, feedPrompt_snoc forward hsome, eval_bind_ok hfed, hsize, hdecode, hstate]
      have hdrop : (first :: ((past i).1.2 ++ [picked])).dropLast = first :: (past i).1.2 := by
        rw [← List.cons_append, List.dropLast_concat]
      rw [hpair]
      refine ⟨by simp [hlength], by simp [List.getLast?_cons], ⟨logits, by rw [hdrop]; exact hdone⟩, fun j hj => ?_⟩
      rw [List.length_append, List.length_singleton] at hj
      by_cases hold : j < (past i).1.2.length
      · rw [List.take_append_of_le_length (Nat.le_of_lt hold), List.getElem_append_left hold]
        exact hpicks j hold
      · have hj' : j = (past i).1.2.length := by omega
        subst hj'
        rw [List.take_left, List.getElem_concat_length rfl]
        exact ⟨logits, _, hdone, hpick⟩
  have hlast := (hinv n (Nat.le_refl n)).2.2.2
  rw [hstop] at hlast
  exact hlast

/-- A prefill that does what feeding the prompt does. -/
theorem prefillTokens_replays {cfg : Config} {req : Request} {prefill : List UInt32 → Exec φ Error (Tensor F)}
    {decode : Forward φ F} {s t : φ} {generated : List UInt32}
    (hprefill : (prefill req.promptTokens).eval s = (feedPrompt decode req.promptTokens).eval s)
    (h : (prefillTokens cfg req prefill decode).eval s = (.ok generated, t)) :
    ReplaysBehindFirst decode s req.promptTokens generated := by
  unfold prefillTokens at h
  dsimp only at h
  split at h
  next => cases h
  next hsome =>
    obtain ⟨total, u, htotal, h⟩ := eval_bind_eq_ok.mp h
    rw [eval_lift, Prod.mk.injEq] at htotal
    obtain ⟨-, rfl⟩ := htotal
    split at h
    next => cases h
    next =>
      obtain ⟨lastPrompt, u, hfed, h⟩ := eval_bind_eq_ok.mp h
      obtain ⟨first, u', hfirst, h⟩ := eval_bind_eq_ok.mp h
      rw [eval_lift, Prod.mk.injEq] at hfirst
      obtain ⟨hfirst, rfl⟩ := hfirst
      obtain ⟨_, u'', hreserve, h⟩ := eval_bind_eq_ok.mp h
      rw [eval_lift, Prod.mk.injEq] at hreserve
      obtain ⟨-, rfl⟩ := hreserve
      obtain ⟨final, u'', hloop, h⟩ := eval_bind_eq_ok.mp h
      cases h
      rw [hprefill] at hfed
      have hprompt : req.promptTokens ≠ [] := fun hnil => hsome (by rw [hnil]; rfl)
      exact fun i hi => ⟨first, ⟨lastPrompt, _, hfed, hfirst⟩, decodeLoop_replays hprompt hfed hloop i hi⟩

end Feeding

section Drivers

variable {F φ σ ε : Type} [F32 F]

theorem perTokenTokens_replays {cfg : Config} {req : Request} {forward : Forward φ F} {s t : φ}
    {generated : List UInt32} (h : (perTokenTokens cfg req forward).eval s = (.ok generated, t)) :
    ReplaysBehindFirst forward s req.promptTokens generated := by
  refine (decoded_of_perTokenTokens h).2.replays fun hnil => ?_
  unfold perTokenTokens at h
  obtain ⟨_, u, -, h⟩ := eval_bind_eq_ok.mp h
  rw [if_pos (by rw [hnil]; rfl)] at h
  cases h

/-- **What a receipt replays.** Each driver that succeeds returns `n_new_tokens` tokens, and token
`i` is the argmax of the logits behind the prompt, the token that follows the prompt, and the
first `i` output tokens. The token that follows the prompt is not among the output tokens. -/
theorem receipt_replays_behind_first (blake3 : Blake3) (cfg : Config) (weightsBlobHash : Hash) (req : Request)
    (sink : CertSink σ ε) (tier : UInt8) :
    (∀ (weights : Weights F) w g certId w',
      (runWithSink blake3 cfg weights weightsBlobHash req sink tier).eval w = (.ok (g, certId), w') →
        ∃ fresh, RunState.new cfg = .ok fresh ∧ g.generatedTokens.length = req.nNewTokens ∧
          ReplaysBehindFirst (DensePass.step cfg weights) fresh req.promptTokens g.generatedTokens) ∧
    (∀ (forward : Forward φ F) s g certId s',
      (runQuantizedWithForward blake3 cfg weightsBlobHash req sink tier forward).eval s = (.ok (g, certId), s') →
        g.generatedTokens.length = req.nNewTokens ∧
          ReplaysBehindFirst forward s.1 req.promptTokens g.generatedTokens) ∧
    (∀ (prefill : List UInt32 → Exec φ Error (Tensor F)) (decode : Forward φ F) s g certId s',
      (prefill req.promptTokens).eval s.1 = (feedPrompt decode req.promptTokens).eval s.1 →
      (runQuantizedWithPrefill blake3 cfg weightsBlobHash req sink tier prefill decode).eval s =
          (.ok (g, certId), s') →
        g.generatedTokens.length = req.nNewTokens ∧
          ReplaysBehindFirst decode s.1 req.promptTokens g.generatedTokens) := by
  refine ⟨fun weights w g certId w' run => ?_, fun forward s g certId s' run => ?_,
    fun prefill decode s g certId s' hprefill run => ?_⟩
  · unfold runWithSink issueFresh at run
    obtain ⟨fresh, t, hfresh, run⟩ := eval_bind_eq_ok.mp run
    have hnew : (lift (RunState.new cfg) : Exec σ Error (RunState F)).eval w = (.ok fresh, t) :=
      eval_mapErr_ok.mp hfresh
    rw [eval_lift, Prod.mk.injEq] at hnew
    rw [eval_withLocal, Prod.mk.injEq] at run
    obtain ⟨⟨t, htokens⟩, -⟩ := issue_eq_ok (Prod.ext run.1 rfl)
    exact ⟨fresh, hnew.1, (decoded_of_perTokenTokens htokens).1, perTokenTokens_replays htokens⟩
  · obtain ⟨⟨t, htokens⟩, -⟩ := issue_eq_ok run
    exact ⟨(decoded_of_perTokenTokens htokens).1, perTokenTokens_replays htokens⟩
  · obtain ⟨⟨t, htokens⟩, -⟩ := issue_eq_ok run
    exact ⟨length_prefillTokens htokens, prefillTokens_replays hprefill htokens⟩

end Drivers

/-! ### A run that does not replay directly -/

/-- Floats that only compare. -/
structure Rank where
  rank : Nat
  deriving DecidableEq, Repr

instance : F32 Rank where
  ofBits b := ⟨b.toNat⟩
  toBits x := UInt32.ofNat x.rank
  add x _ := x
  sub x _ := x
  mul x _ := x
  div x _ := x
  neg x := x
  lt x y := x.rank < y.rank
  le x y := x.rank ≤ y.rank
  ofInt n := ⟨n.toNat⟩
  toI32 x := x.rank
  expf x := x
  powf x _ := x
  cosf x := x
  sinf x := x
  sqrtf x := x

/-- Two logits. -/
def twoLogits (a b : Nat) : Tensor Rank :=
  ⟨.f32 [⟨a⟩, ⟨b⟩], ⟨[2], by decide⟩, [1], 0, .f32, .cpu, rfl, Tensor.offset_zero, rfl, rfl⟩

/-- A model of two tokens that follow each other. -/
def alternating : Forward Unit Rank :=
  fun token _ => pure (if token = 0 then twoLogits 0 1 else twoLogits 1 0)

/-- Both drivers return token 0 after prompt 0, but the argmax behind the prompt is token 1. -/
theorem receipt_not_replays_directly :
    ∃ g : Generation, g.generatedTokens = [0] ∧
      (∃ certId, (runQuantizedWithForward leadingBytes tinyConfig (leadingBytes []) ⟨"m", [0], 1⟩ nullSink 0
        alternating).eval ((), ()) = (.ok (g, certId), ((), ()))) ∧
      (∃ certId, (runQuantizedWithPrefill leadingBytes tinyConfig (leadingBytes []) ⟨"m", [0], 1⟩ nullSink 0
        (feedPrompt alternating) alternating).eval ((), ()) = (.ok (g, certId), ((), ()))) ∧
      ¬ReplaysDirectly alternating () [0] g.generatedTokens := by
  refine ⟨_, ?_, ⟨_, rfl⟩, ⟨_, rfl⟩, fun hreplays => ?_⟩
  · rfl
  · obtain ⟨logits, s', hfed, hpick⟩ := hreplays 0 (by decide)
    have hlogits : twoLogits 0 1 = logits := Except.ok.inj (congrArg Prod.fst hfed)
    rw [← hlogits] at hpick
    exact absurd (Except.ok.inj hpick) (by decide)

/-- A run of three turns. -/
theorem receipt_replays_behind_first_alternating :
    ∃ g : Generation, (∃ certId, (runQuantizedWithForward leadingBytes tinyConfig (leadingBytes []) ⟨"m", [0], 2⟩
        nullSink 0 alternating).eval ((), ()) = (.ok (g, certId), ((), ()))) ∧
      ReplaysBehindFirst alternating () [0] g.generatedTokens := by
  obtain ⟨-, hforward, -⟩ := @receipt_replays_behind_first Rank Unit Unit Empty _ leadingBytes tinyConfig
    (leadingBytes []) ⟨"m", [0], 2⟩ nullSink 0
  exact ⟨_, ⟨_, rfl⟩, (hforward alternating ((), ()) _ _ _ rfl).2⟩

end VitniTensor
