import VitniTensor.Cert.Calls
import VitniTensor.Inference.Run

/-!
# Refused receipts

A sink that refuses a call ends the run with its error. What the sink has received by then is the
beginning of the full sequence of calls, up to the refused one; when the inference itself fails the
sink has received nothing.
-/

namespace VitniTensor

open Outcome Exec

variable {F φ σ ε : Type} [F32 F]

section Drivers

variable (blake3 : Blake3) (cfg : Config) (weightsBlobHash : Hash) (req : Request) (sink : CertSink σ ε) (tier : UInt8)

/-- What a run tells its sink once the tokens are there. -/
def receiptCalls (generated : List UInt32) : List SinkEvent :=
  (bindOutputs blake3 (bindInputs blake3 cfg weightsBlobHash req) generated).calls tier

/-- How a run ends whose inference comes to `tokens`, from each state of the sink and each list of the
calls received so far. -/
structure Reports (tokens : Res (List UInt32))
    (run : σ × List SinkEvent → Outcome (RunError ε) (Generation × UInt64) × (σ × List SinkEvent)) : Prop where
  /-- No call is made when the inference fails. -/
  failed : ∀ stop, tokens = .error stop → ∀ w, run w = (.error (stop.map .inference), w)
  /-- The run ends with the refused call. -/
  refused : ∀ generated, tokens = .ok generated → ∀ taken event left,
    receiptCalls blake3 cfg weightsBlobHash req tier generated = taken ++ event :: left →
      ∀ s stop t, sink.Refuses s taken event stop t →
        ∀ log, run (s, log) = (.error (stop.map .sink), (t, log ++ taken ++ [event]))
  /-- A receipt is returned exactly when every call is taken. -/
  issued : ∀ s log, (∃ r w, run (s, log) = (.ok r, w)) ↔
    ∃ generated, tokens = .ok generated ∧
      ∃ t, sink.Takes s (receiptCalls blake3 cfg weightsBlobHash req tier generated) t

/-- Every call is recorded when all are taken. -/
theorem finalizeWithSink_logged_taken {b : CertBuilder} {s t : σ} (h : sink.Takes s (b.calls tier) t)
    (log : List SinkEvent) :
    ∃ r, (b.finalizeWithSink blake3 sink.logged tier).eval (s, log) = (.ok r, (t, log ++ b.calls tier)) :=
  CertBuilder.finalizeWithSink_taken_iff.mpr (h.logged log)

theorem issue_reports (tokens : Exec φ Error (List UInt32)) (start : φ) :
    Reports blake3 cfg weightsBlobHash req sink tier (tokens.eval start).1 fun w =>
      let ended := (issue blake3 cfg weightsBlobHash req sink.logged tier tokens).eval (start, w)
      (ended.1, ended.2.2) := by
  rcases htokens : tokens.eval start with ⟨stop | generated, state⟩
  · have hfirst : ∀ w : σ × List SinkEvent,
        (onFst (mapErr (RunError.inference (ε := ε)) tokens)).eval (start, w) =
          (.error (stop.map .inference), (state, w)) := by
      intro w
      rw [eval_onFst, eval_mapErr_error htokens]
    refine ⟨fun stop' hstop w => ?_, fun generated hgenerated => ?_, fun s log => ?_⟩
    · cases hstop
      unfold issue
      dsimp only
      rw [eval_bind_error (hfirst w)]
    · cases hgenerated
    · constructor
      · rintro ⟨r, w, hrun⟩
        unfold issue at hrun
        dsimp only at hrun
        rw [eval_bind_error (hfirst _)] at hrun
        cases congrArg Prod.fst hrun
      · rintro ⟨generated, hgenerated, -⟩
        cases hgenerated
  · have hfirst : ∀ w : σ × List SinkEvent,
        (onFst (mapErr (RunError.inference (ε := ε)) tokens)).eval (start, w) = (.ok generated, (state, w)) := by
      intro w
      rw [eval_onFst, eval_mapErr_ok.mpr htokens]
    refine ⟨fun stop hstop => ?_, fun generated' hgenerated => ?_, fun s log => ?_⟩
    · cases hstop
    · cases hgenerated
      intro taken event left hcalls s stop t hrefuses log
      have hfinalize := @CertBuilder.finalizeWithSink_refused _ _ _ blake3 _ _ _ _ _ _ _ _ hcalls (hrefuses.logged log)
      unfold issue
      dsimp only
      rw [eval_bind_ok (hfirst _), eval_bind, eval_onSnd, eval_mapErr_error hfinalize]
    · unfold issue
      dsimp only
      rw [eval_bind_ok (hfirst _), eval_bind, eval_onSnd]
      constructor
      · rintro ⟨r, w, hrun⟩
        refine ⟨generated, rfl, ?_⟩
        rcases CertSink.takes_or_refuses sink s (receiptCalls blake3 cfg weightsBlobHash req tier generated)
          with htaken | ⟨taken, event, left, stop, t, hcalls, hrefuses⟩
        · exact htaken
        · -- a refused call is not followed by a receipt
          have hfinalize := @CertBuilder.finalizeWithSink_refused _ _ _ blake3 _ _ _ _ _ _ _ _ hcalls (hrefuses.logged log)
          rw [eval_mapErr_error hfinalize] at hrun
          cases congrArg Prod.fst hrun
      · rintro ⟨generated', hgenerated, t, htaken⟩
        cases hgenerated
        obtain ⟨r, hrun⟩ := finalizeWithSink_logged_taken blake3 sink tier htaken log
        rw [eval_mapErr_ok.mpr hrun]
        exact ⟨_, _, rfl⟩

/-- The inference of `run_with_sink`. -/
def denseTokens (weights : Weights F) : Res (List UInt32) := do
  let run ← RunState.new cfg
  ((perTokenTokens cfg req (DensePass.step cfg weights)).eval run).1

theorem runWithSink_reports (weights : Weights F) :
    Reports blake3 cfg weightsBlobHash req sink tier (denseTokens cfg req weights)
      ((runWithSink blake3 cfg weights weightsBlobHash req sink.logged tier).eval) := by
  unfold denseTokens
  rcases hnew : (RunState.new cfg : Res (RunState F)) with stop | run
  · have hrun : ∀ w, (runWithSink blake3 cfg weights weightsBlobHash req sink.logged tier).eval w =
        (.error (stop.map .inference), w) := by
      intro w
      unfold runWithSink issueFresh
      rw [hnew, eval_bind_error (eval_mapErr_error (eval_lift _ _))]
    refine ⟨fun stop' hstop w => ?_, fun generated hgenerated => ?_, fun s log => ?_⟩
    · cases hstop
      exact hrun w
    · cases hgenerated
    · rw [hrun]
      constructor
      · rintro ⟨r, w, h⟩
        cases congrArg Prod.fst h
      · rintro ⟨generated, hgenerated, -⟩
        cases hgenerated
  · have hrun : ∀ w, (runWithSink blake3 cfg weights weightsBlobHash req sink.logged tier).eval w =
        let ended := (issue blake3 cfg weightsBlobHash req sink.logged tier
          (perTokenTokens cfg req (DensePass.step cfg weights))).eval (run, w)
        (ended.1, ended.2.2) := by
      intro w
      unfold runWithSink issueFresh
      rw [hnew, eval_bind_ok (eval_mapErr_ok.mpr (eval_lift _ _)), eval_withLocal]
      rfl
    have hreports := issue_reports blake3 cfg weightsBlobHash req sink tier
      (perTokenTokens cfg req (DensePass.step cfg weights)) run
    rw [funext hrun]
    exact hreports

end Drivers

/-- A refused call ends the run with its error, whichever call it is; there is a receipt exactly when
every call is taken. -/
theorem failing_sink_yields_no_receipt (F φ : Type) [F32 F] (blake3 : Blake3) (sink : CertSink σ ε) (tier : UInt8) :
    (∀ (b : CertBuilder) taken event left s stop t, b.calls tier = taken ++ event :: left →
      sink.Refuses s taken event stop t →
        (b.finalizeWithSink blake3 sink tier).eval s = (.error stop, t) ∧
          (∀ log, (b.finalizeWithSink blake3 sink.logged tier).eval (s, log) =
            (.error stop, (t, log ++ taken ++ [event]))) ∧
          SinkEvent.finalize ∉ taken ∧ (event = .finalize ↔ left = [])) ∧
      (∀ (b : CertBuilder) s, (∃ r t, (b.finalizeWithSink blake3 sink tier).eval s = (.ok r, t)) ↔
        ∃ t, sink.Takes s (b.calls tier) t) ∧
      (∀ events s, (∃ t, sink.Takes s events t) ∨
        ∃ taken event left stop t, events = taken ++ event :: left ∧ sink.Refuses s taken event stop t) ∧
      ∀ cfg weightsBlobHash req,
        (∀ (forward : Forward φ F) (start : φ),
          Reports blake3 cfg weightsBlobHash req sink tier ((perTokenTokens cfg req forward).eval start).1 fun w =>
            let ended := (runQuantizedWithForward blake3 cfg weightsBlobHash req sink.logged tier forward).eval (start, w)
            (ended.1, ended.2.2)) ∧
        ∀ weights : Weights F, Reports blake3 cfg weightsBlobHash req sink tier (denseTokens cfg req weights)
          ((runWithSink blake3 cfg weights weightsBlobHash req sink.logged tier).eval) := by
  refine ⟨?_, ?_, ?_, ?_⟩
  · intro b taken event left s stop t hcalls hrefuses
    exact ⟨CertBuilder.finalizeWithSink_refused hcalls hrefuses,
      fun log => CertBuilder.finalizeWithSink_refused hcalls (hrefuses.logged log), CertBuilder.finalize_last hcalls⟩
  · intro b s
    constructor
    · rintro ⟨r, t, hrun⟩
      exact ⟨t, CertBuilder.finalizeWithSink_taken_iff.mp ⟨r, hrun⟩⟩
    · rintro ⟨t, htaken⟩
      obtain ⟨r, hrun⟩ := CertBuilder.finalizeWithSink_taken_iff.mpr htaken
      exact ⟨r, t, hrun⟩
  · exact fun events s => CertSink.takes_or_refuses sink s events
  · intro cfg weightsBlobHash req
    constructor
    · intro forward start
      exact issue_reports blake3 cfg weightsBlobHash req sink tier (perTokenTokens cfg req forward) start
    · exact runWithSink_reports blake3 cfg weightsBlobHash req sink tier

/-- A sink that takes no input. -/
def noInput : CertSink Unit String where
  onRequest _ := pure ()
  onInput _ _ := fail "simulated EXCERT_REQUEST_LIMIT"
  onOutput _ _ := pure ()
  onFinalize := pure 0

theorem failing_sink_yields_no_receipt_noInput :
    ((CertBuilder.new.declareInput "model_id" [1]).finalizeWithSink (fun _ => Vector.replicate 32 0) noInput.logged 0).eval
        ((), []) = (.error (.err "simulated EXCERT_REQUEST_LIMIT"), ((), [.request 0, .input "model_id" [1]])) :=
  ((failing_sink_yields_no_receipt Float32 Unit (fun _ => Vector.replicate 32 0) noInput 0).1
    (CertBuilder.new.declareInput "model_id" [1]) [.request 0] (.input "model_id" [1]) [.finalize] ()
    (.err "simulated EXCERT_REQUEST_LIMIT") () rfl ⟨(), .one rfl (.none ()), rfl⟩).2.1 []

end VitniTensor
