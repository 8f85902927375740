import VitniTensor.Binary32
import VitniTensor.Inference.Driver

/-!
# The prefill driver is transparent to the receipt

Feeding the prompt in one call and then decoding goes through the same forward calls as
the per-token loop: the loop is cut at the last prompt token, its first part is the
prefill, and its second part is the decode loop.
-/

namespace VitniTensor

open Outcome Exec

variable {F φ σ ε : Type} [F32 F]

/-- Prefill by one forward call per prompt token, returning the last logits. -/
def feedPrompt (forward : Forward φ F) (prompt : List UInt32) : Exec φ Error (Tensor F) := do
  let first ← lift (index prompt 0)
  let logits ← forward first 0
  forFrom 1 (prompt.length - 1) (fun pos _ => do
    let token ← lift (index prompt pos)
    forward token pos) logits

/-- Every tensor that `forward` returns is a tensor of logits. -/
def ReturnsLogits (forward : Forward φ F) : Prop :=
  ∀ token pos s t s', (forward token pos).eval s = (.ok t, s') → t.IsLogits

/-- A token that is picked and then not used. -/
private theorem unused_pick {forward : Forward φ F} (returns : ReturnsLogits forward) {α : Type}
    (token : UInt32) (pos : Nat) (next : Tensor F → Exec φ Error α) :
    (do let logits ← forward token pos
        let _ ← lift logits.pick
        next logits) = forward token pos >>= next := by
  refine Exec.ext fun s => ?_
  cases run : (forward token pos).eval s with
  | mk out s' =>
    cases out with
    | error stop => rw [eval_bind_error run, eval_bind_error run]
    | ok logits =>
      obtain ⟨v, picked⟩ := Tensor.pick_of_isLogits (returns token pos s logits s' run)
      rw [eval_bind_ok run, eval_bind_ok run, picked, lift_ok, pure_bind]

/-- The prompt part of the per-token loop, from position `lo` on. -/
private theorem prompt_part {forward : Forward φ F} (returns : ReturnsLogits forward)
    (prompt : List UInt32) (m : Nat) : ∀ lo, (inside : lo + m + 1 = prompt.length) →
      forFrom lo (m + 1) (perTokenBody forward prompt) (prompt[lo], []) = (do
        let logits ← forward prompt[lo] lo
        let last ← forFrom (lo + 1) m (fun pos _ => do
          let token ← lift (index prompt pos)
          forward token pos) logits
        let cur ← lift last.pick
        pure (cur, [])) := by
  induction m with
  | zero =>
    intro lo inside
    have final : ¬lo + 1 < prompt.length := by omega
    have early : ¬lo ≥ prompt.length := by omega
    simp only [forFrom, perTokenBody, nextToken, final, early, if_false, lift_ok, pure_bind, bind_pure]
  | succ m ih =>
    intro lo inside
    have more : lo + 1 < prompt.length := by omega
    have early : ¬lo ≥ prompt.length := by omega
    have rest := ih (lo + 1) (by omega)
    have start : forFrom lo (m + 1 + 1) (perTokenBody forward prompt) (prompt[lo], []) =
        perTokenBody forward prompt lo (prompt[lo], []) >>=
          forFrom (lo + 1) (m + 1) (perTokenBody forward prompt) := rfl
    rw [start]
    simp only [perTokenBody, nextToken, more, early, if_true, if_false, index_of_lt more, lift_ok, bind_assoc,
      pure_bind]
    rw [unused_pick returns]
    refine bind_congr fun logits => ?_
    rw [rest]
    conv_rhs => rw [forFrom, index_of_lt more, lift_ok, pure_bind]
    simp only [bind_assoc]

/-- Behind the prompt the per-token body is the decode body. -/
private theorem decode_part (forward : Forward φ F) (prompt : List UInt32) (n : Nat)
    (s : UInt32 × List UInt32) :
    forFrom prompt.length n (perTokenBody forward prompt) s =
      forRange n (decodeBody forward prompt.length) s := by
  have shifted := forFrom_shift prompt.length 0 n (perTokenBody forward prompt) s
  rw [Nat.add_zero] at shifted
  rw [shifted]
  have bodies : (fun i => perTokenBody forward prompt (prompt.length + i)) =
      decodeBody forward prompt.length := by
    funext i s
    have late : ¬prompt.length + i + 1 < prompt.length := by omega
    have recorded : prompt.length + i ≥ prompt.length := by omega
    simp only [perTokenBody, decodeBody, nextToken, late, recorded, if_true, if_false, lift_ok,
      pure_bind]
  rw [bodies]

theorem prefillTokens_eq (cfg : Config) (req : Request) {forward : Forward φ F}
    (returns : ReturnsLogits forward) (small : req.nNewTokens < 2 ^ 61) :
    prefillTokens cfg req (feedPrompt forward) forward = perTokenTokens cfg req forward := by
  have reserved : reserveTokens req.nNewTokens = .ok () := if_pos (by omega)
  unfold prefillTokens perTokenTokens
  rw [reserved, lift_ok, pure_bind]
  dsimp only
  split
  next empty => rfl
  next nonempty =>
    by_cases fits : req.promptTokens.length + req.nNewTokens < wordSize
    · rw [word_of_lt fits, lift_ok, pure_bind, pure_bind]
      split
      next long => rfl
      next short =>
        obtain ⟨m, length⟩ : ∃ m, req.promptTokens.length = m + 1 :=
          ⟨req.promptTokens.length - 1, by omega⟩
        have positive : 0 < req.promptTokens.length := by omega
        have front := prompt_part returns req.promptTokens m 0 (by omega)
        have back := decode_part forward req.promptTokens req.nNewTokens
        have pred : req.promptTokens.length - 1 = m := by omega
        rw [index_of_lt positive, lift_ok, pure_bind, forRange, forFrom_add, Nat.zero_add, length,
          front]
        simp only [bind_assoc, pure_bind, feedPrompt, index_of_lt positive, lift_ok, pred,
          ← length, back]
    · simp only [word, fits, if_false]
      rfl

/-- What a run of the per-token driver did: the tokens it fed, the logits it got and the
states of the forward function, position by position. -/
def Decoded (forward : Forward φ F) (prompt : List UInt32) (s : φ) (generated : List UInt32) : Prop :=
  ∃ (run : Nat → φ) (fed : Nat → UInt32) (logits : Nat → Tensor F),
    run 0 = s ∧
    (∀ pos < prompt.length + generated.length,
      (forward (fed pos) pos).eval (run pos) = (.ok (logits pos), run (pos + 1))) ∧
    (∀ pos (h : pos < prompt.length), fed pos = prompt[pos]) ∧
    (∀ pos, prompt.length ≤ pos + 1 → pos + 1 < prompt.length + generated.length →
      (logits pos).pick = .ok (fed (pos + 1))) ∧
    ∀ i (h : i < generated.length), (logits (prompt.length + i)).pick = .ok generated[i]

/-- One turn of the per-token loop, read off its result. -/
private theorem perTokenBody_eq_ok {forward : Forward φ F} {prompt : List UInt32} {pos : Nat}
    {a b : UInt32 × List UInt32} {s s' : φ}
    (h : (perTokenBody forward prompt pos a).eval s = (.ok b, s')) :
    ∃ logits picked, (forward a.1 pos).eval s = (.ok logits, s') ∧ logits.pick = .ok picked ∧
      (∀ inside : pos + 1 < prompt.length, b.1 = prompt[pos + 1]) ∧
      (prompt.length ≤ pos + 1 → b.1 = picked) ∧
      b.2 = if pos ≥ prompt.length then a.2 ++ [b.1] else a.2 := by
  obtain ⟨logits, t, step, h⟩ := eval_bind_eq_ok.mp h
  obtain ⟨picked, t', pick, h⟩ := eval_bind_eq_ok.mp h
  obtain ⟨next, t'', choose, h⟩ := eval_bind_eq_ok.mp h
  rw [eval_lift, Prod.mk.injEq] at pick choose
  obtain ⟨pick, rfl⟩ := pick
  obtain ⟨choose, rfl⟩ := choose
  cases h
  unfold nextToken at choose
  split at choose
  next inside =>
    rw [index_of_lt inside] at choose
    cases choose
    exact ⟨logits, picked, step, pick, fun _ => rfl, fun late => absurd inside (by omega), rfl⟩
  next outside =>
    cases choose
    exact ⟨logits, picked, step, pick, fun early => absurd early outside, fun _ => rfl, rfl⟩

/-- Recording starts behind the prompt and misses no turn. -/
private theorem recorded_tokens (prompt : List UInt32) (past : Nat → (UInt32 × List UInt32) × φ)
    (start : (past 0).1.2 = []) (total : Nat)
    (turn : ∀ i < total, (past (i + 1)).1.2 =
      if i ≥ prompt.length then (past i).1.2 ++ [(past (i + 1)).1.1] else (past i).1.2) :
    (past total).1.2 =
      (List.range (total - prompt.length)).map fun j => (past (prompt.length + j + 1)).1.1 := by
  induction total with
  | zero => simpa using start
  | succ total ih =>
    have front := ih fun i low => turn i (by omega)
    rw [turn total (Nat.lt_succ_self total), front]
    by_cases late : total ≥ prompt.length
    · have more : total + 1 - prompt.length = total - prompt.length + 1 := by omega
      have position : prompt.length + (total - prompt.length) = total := by omega
      rw [if_pos late, more, List.range_succ, List.map_append, List.map_singleton, position]
    · have none : total + 1 - prompt.length = total - prompt.length := by omega
      rw [if_neg late, none]

theorem decoded_of_perTokenTokens {cfg : Config} {req : Request} {forward : Forward φ F} {s s' : φ}
    {generated : List UInt32}
    (h : (perTokenTokens cfg req forward).eval s = (.ok generated, s')) :
    generated.length = req.nNewTokens ∧ Decoded forward req.promptTokens s generated := by
  unfold perTokenTokens at h
  obtain ⟨_, t, reserve, h⟩ := eval_bind_eq_ok.mp h
  rw [eval_lift, Prod.mk.injEq] at reserve
  obtain ⟨-, rfl⟩ := reserve
  split at h
  next empty => cases h
  next nonempty =>
    obtain ⟨total, t, sum, h⟩ := eval_bind_eq_ok.mp h
    rw [eval_lift, Prod.mk.injEq] at sum
    obtain ⟨sum, rfl⟩ := sum
    obtain ⟨-, rfl⟩ := word_eq_ok.mp sum
    split at h
    next long => cases h
    next short =>
      have positive : 0 < req.promptTokens.length := by omega
      rw [index_of_lt positive, lift_ok, pure_bind] at h
      obtain ⟨final, t, loop, h⟩ := eval_bind_eq_ok.mp h
      cases h
      obtain ⟨past, start, stop, steps⟩ := history loop
      simp only [Nat.zero_add] at steps
      have record := recorded_tokens req.promptTokens past (by rw [start])
        (req.promptTokens.length + req.nNewTokens) fun i low => by
          obtain ⟨-, -, -, -, -, -, recorded⟩ := perTokenBody_eq_ok (steps i low)
          exact recorded
      rw [stop, Nat.add_sub_cancel_left] at record
      have length : final.2.length = req.nNewTokens := by
        rw [record, List.length_map, List.length_range]
      -- every turn of the loop, read off
      have turns := fun i low => perTokenBody_eq_ok (steps i low)
      obtain ⟨logits₀, -⟩ := turns 0 (by omega)
      have total : ∀ i, ∃ logits, i < req.promptTokens.length + req.nNewTokens →
          (forward (past i).1.1 i).eval (past i).2 = (.ok logits, (past (i + 1)).2) ∧
          (∀ inside : i + 1 < req.promptTokens.length,
            (past (i + 1)).1.1 = req.promptTokens[i + 1]) ∧
          (req.promptTokens.length ≤ i + 1 → logits.pick = .ok (past (i + 1)).1.1) := by
        intro i
        by_cases low : i < req.promptTokens.length + req.nNewTokens
        · obtain ⟨logits, picked, step, pick, forced, chosen, -⟩ := turns i low
          exact ⟨logits, fun _ => ⟨step, forced, fun late => by rw [pick, chosen late]⟩⟩
        · exact ⟨logits₀, fun inside => absurd inside low⟩
      choose logits turn using total
      refine ⟨length, fun i => (past i).2, fun i => (past i).1.1, logits, by simp only [start], ?_, ?_, ?_, ?_⟩
      · intro pos low
        rw [length] at low
        exact (turn pos low).1
      · intro pos inside
        cases pos with
        | zero => simp only [start]
        | succ pos => exact (turn pos (by omega)).2.1 inside
      · intro pos late low
        rw [length] at low
        exact (turn pos (by omega)).2.2 late
      · intro i inside
        have picked := (turn (req.promptTokens.length + i) (by omega)).2.2 (by omega)
        have entry : final.2[i] = (past (req.promptTokens.length + i + 1)).1.1 := by
          have copy := List.getElem_of_eq record inside
          rw [copy, List.getElem_map, List.getElem_range]
        rw [entry]
        exact picked

/-- The tokens of both drivers, and with them everything that is issued, are the same; and
each new token is the argmax of the logits at its position. -/
theorem prefill_transparent (blake3 : Blake3) (cfg : Config) (weightsBlobHash : Hash) (req : Request)
    (sink : CertSink σ ε) (tier : UInt8) (forward : Forward φ F) (returns : ReturnsLogits forward)
    (small : req.nNewTokens < 2 ^ 61) :
    runQuantizedWithPrefill blake3 cfg weightsBlobHash req sink tier (feedPrompt forward) forward =
        runQuantizedWithForward blake3 cfg weightsBlobHash req sink tier forward ∧
      ∀ s w g certId s' w',
        (runQuantizedWithForward blake3 cfg weightsBlobHash req sink tier forward).eval (s, w) =
            (.ok (g, certId), (s', w')) →
          g.generatedTokens.length = req.nNewTokens ∧
            Decoded forward req.promptTokens s g.generatedTokens := by
  constructor
  · unfold runQuantizedWithPrefill runQuantizedWithForward
    rw [prefillTokens_eq cfg req returns small]
  · intro s w g certId s' w' run
    unfold runQuantizedWithForward issue at run
    obtain ⟨generated, ⟨t, v⟩, tokens, run⟩ := eval_bind_eq_ok.mp run
    obtain ⟨⟨cert, id⟩, ⟨t', v'⟩, finish, run⟩ := eval_bind_eq_ok.mp run
    cases run
    rw [eval_onFst, Prod.mk.injEq] at tokens
    have inner : (perTokenTokens cfg req forward).eval s = (.ok generated, t) := by
      refine eval_mapErr_ok.mp (Prod.ext tokens.1 ?_)
      exact congrArg Prod.fst tokens.2
    exact decoded_of_perTokenTokens inner

/-- One row of one logit. -/
def oneLogit : Tensor Float32 :=
  ⟨.f32 [F32.one], ⟨[1], by decide⟩, [1], 0, .f32, .cpu, rfl, Tensor.offset_zero, rfl, rfl⟩

/-- No row of two logits. -/
def noRow : Tensor Float32 :=
  ⟨.f32 [], ⟨[0, 2], by decide⟩, [2, 1], 0, .f32, .cpu, rfl, Tensor.offset_zero, rfl, rfl⟩

/-- A hash for concrete runs: the leading bytes, padded with zeros. -/
def leadingBytes : Blake3 :=
  fun bytes => Vector.ofFn fun i => bytes.getD i.val 0

def tinyConfig : Config where
  dim := 2
  hiddenDim := 2
  nLayers := 1
  nHeads := 1
  nKvHeads := 1
  vocabSize := 1
  seqLen := 4
  sharedWeights := true

/-- With three logits. -/
def threeLogitsConfig : Config :=
  { tinyConfig with vocabSize := 3, seqLen := 8 }

/-- Three logits, of which the one that the state points at is the largest. -/
def turningLogits (n : Nat) : Tensor Binary32 where
  storage := .f32 ((List.range 3).map fun i => if i = n % 3 then ⟨0x3F800000⟩ else ⟨0⟩)
  shape := ⟨[3], by decide⟩
  strides := [1]
  offset := 0
  dtype := .f32
  device := .cpu
  rowMajor := by decide
  atStart := Tensor.offset_zero
  tagged := rfl
  filled := rfl

/-- A pass that remembers the tokens that it was fed. -/
def turningForward : Forward Nat Binary32 := fun token pos => do
  let n ← state
  update (· + token.toNat + pos)
  pure (turningLogits n)

theorem isLogits_turningLogits (n : Nat) : (turningLogits n).IsLogits :=
  ⟨⟨_, rfl⟩, (by decide : 3 * 4 < 2 ^ 63), (by decide : 0 < 3), (by decide : 0 < 3)⟩

/-- The picks follow the state, and so the tokens. -/
theorem prefill_transparent_turning :
    runQuantizedWithPrefill leadingBytes threeLogitsConfig (leadingBytes []) ⟨"m", [1, 2], 3⟩ nullSink 0
        (feedPrompt turningForward) turningForward =
      runQuantizedWithForward leadingBytes threeLogitsConfig (leadingBytes []) ⟨"m", [1, 2], 3⟩ nullSink 0
        turningForward ∧
      ∃ g certId s', (runQuantizedWithForward leadingBytes threeLogitsConfig (leadingBytes []) ⟨"m", [1, 2], 3⟩
          nullSink 0 turningForward).eval (0, ()) = (.ok (g, certId), s') ∧
        g.generatedTokens = [1, 1, 2] ∧ Decoded turningForward [1, 2] 0 g.generatedTokens := by
  have hreturns : ReturnsLogits turningForward := by
    intro token pos s t s' hrun
    cases hrun
    exact isLogits_turningLogits s
  obtain ⟨hsame, hdecoded⟩ := prefill_transparent leadingBytes threeLogitsConfig (leadingBytes []) ⟨"m", [1, 2], 3⟩
    nullSink 0 turningForward hreturns (by decide)
  exact ⟨hsame, _, _, _, rfl, rfl, (hdecoded 0 () _ _ _ _ rfl).2⟩
/-- Without the two bounds the drivers part: the per-token driver reserves room for the new
tokens before it compares their number with `seq_len`, and it looks for the argmax of a
tensor without rows already at the first prompt token. -/
theorem prefill_not_transparent :
    ((runQuantizedWithForward leadingBytes tinyConfig (leadingBytes []) ⟨"m", [1], 2 ^ 61⟩ nullSink 0
        (fun _ _ => (pure oneLogit : Exec Unit Error _))).eval ((), ())).1 =
        .error (.panic .capacityOverflow) ∧
      ((runQuantizedWithPrefill leadingBytes tinyConfig (leadingBytes []) ⟨"m", [1], 2 ^ 61⟩ nullSink 0
        (feedPrompt fun _ _ => (pure oneLogit : Exec Unit Error _)) (fun _ _ => pure oneLogit)).eval
          ((), ())).1 = .error (.err (.inference tooLong)) ∧
      ((runQuantizedWithForward leadingBytes tinyConfig (leadingBytes []) ⟨"m", [1, 2], 0⟩ nullSink 0
        (fun _ pos => (if pos = 0 then pure noRow else fail (.gpuError "lost") : Exec Unit Error _))).eval
          ((), ())).1 = .error (.panic .outOfRange) ∧
      ((runQuantizedWithPrefill leadingBytes tinyConfig (leadingBytes []) ⟨"m", [1, 2], 0⟩ nullSink 0
        (feedPrompt fun _ pos => (if pos = 0 then pure noRow else fail (.gpuError "lost") : Exec Unit Error _))
        (fun _ pos => if pos = 0 then pure noRow else fail (.gpuError "lost"))).eval
          ((), ())).1 = .error (.err (.inference (.gpuError "lost"))) := by
  refine ⟨rfl, rfl, rfl, rfl⟩

end VitniTensor
