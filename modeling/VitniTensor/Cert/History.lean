import VitniTensor.Cert.SinkWiring
import Mathlib.Data.List.Induction

/-!
# Declaration histories

A builder is called with declarations of five kinds in any interleaving. The certificate, what a sink
is told, and the digest recomputed from that all come down to the five subsequences.
-/

namespace VitniTensor

open Outcome Exec SinkWiring

inductive Kind where
  | input | output | op | activation | intervention
  deriving DecidableEq, Repr

/-- A call of one of the `declare_*` functions. -/
inductive Declaration where
  | input (name : String) (bytes : List UInt8)
  | output (name : String) (bytes : List UInt8)
  | op (opName : String) (layer : UInt32) (inputHash paramsHash outputHash : Hash)
  | activation (tokenIndex layer : UInt32) (checkpoint : String) (tensorHash : Hash)
  | intervention (tokenIndex layer : UInt32) (checkpoint : String) (replacementHash : Hash)
  deriving DecidableEq, Repr

namespace Declaration

def kind : Declaration → Kind
  | input .. => .input
  | output .. => .output
  | op .. => .op
  | activation .. => .activation
  | intervention .. => .intervention

/-- The call. An input is asserted to come before any output. -/
def declare (b : CertBuilder) : Declaration → Res CertBuilder
  | input name bytes => if b.sealed then .error (.panic .explicit) else .ok (b.declareInput name bytes)
  | output name bytes => .ok (b.declareOutput name bytes)
  | op opName layer inputHash paramsHash outputHash =>
      .ok (b.declareOp opName layer inputHash paramsHash outputHash)
  | activation tokenIndex layer checkpoint tensorHash =>
      .ok (b.declareActivation tokenIndex layer checkpoint tensorHash)
  | intervention tokenIndex layer checkpoint replacementHash =>
      .ok (b.declareIntervention tokenIndex layer checkpoint replacementHash)

def declareAll (b : CertBuilder) (history : List Declaration) : Res CertBuilder :=
  history.foldlM declare b

/-- What a sink is told of the declaration if its record has this index. -/
def event (index : UInt32) : Declaration → SinkEvent
  | input name bytes => .input name bytes
  | output name bytes => .output name bytes
  | op opName layer inputHash paramsHash outputHash =>
      .op ⟨index, opName, layer, inputHash, paramsHash, outputHash⟩
  | activation tokenIndex layer checkpoint tensorHash =>
      .activation ⟨index, tokenIndex, layer, checkpoint, tensorHash⟩
  | intervention tokenIndex layer checkpoint replacementHash =>
      .intervention ⟨index, tokenIndex, layer, checkpoint, replacementHash⟩

end Declaration

open Declaration

/-- The declarations of one kind, in order. -/
def ofKind (kind : Kind) (history : List Declaration) : List Declaration :=
  history.filter fun d => d.kind = kind

/-- Their events, numbered within the kind. -/
def numbered (kind : Kind) (history : List Declaration) : List SinkEvent :=
  (ofKind kind history).mapIdx fun i d => d.event (UInt32.ofNat i)

/-- No input is declared after an output. -/
def InputsFirst (history : List Declaration) : Prop :=
  history.Pairwise fun earlier later => earlier.kind = .output → later.kind ≠ .input

/-- All that a sink is told. -/
def eventsOf (tier : UInt8) (history : List Declaration) : List SinkEvent :=
  [.request tier] ++ numbered .input history ++ numbered .op history ++ numbered .activation history ++
    numbered .intervention history ++ numbered .output history ++ [.finalize]

/-! ### Events alone -/

/-- The declaration that an event tells of; its index is not part of it. -/
def SinkEvent.declaration? : SinkEvent → Option Declaration
  | .input name bytes => some (.input name bytes)
  | .output name bytes => some (.output name bytes)
  | .op r => some (.op r.opName r.layer r.inputHash r.paramsHash r.outputHash)
  | .activation r => some (.activation r.tokenIndex r.layer r.checkpoint r.tensorHash)
  | .intervention r => some (.intervention r.tokenIndex r.layer r.checkpoint r.replacementHash)
  | .request _ | .finalize => none

/-! ### The builder behind a history -/

/-- The builder's buffers, as a sink is told of them. -/
structure Buffers (b : CertBuilder) (history : List Declaration) : Prop where
  inputs : b.inputs.map (fun f => SinkEvent.input f.name f.bytes) = numbered .input history
  outputs : b.outputs.map (fun f => SinkEvent.output f.name f.bytes) = numbered .output history
  ops : b.ops.map SinkEvent.op = numbered .op history
  activations : b.activations.map SinkEvent.activation = numbered .activation history
  interventions : b.interventions.map SinkEvent.intervention = numbered .intervention history
  nextOp : b.nextOpIndex = UInt32.ofNat (ofKind .op history).length
  nextAct : b.nextActIndex = UInt32.ofNat (ofKind .activation history).length
  nextIntv : b.nextIntvIndex = UInt32.ofNat (ofKind .intervention history).length
  isSealed : b.sealed = history.any fun d => d.kind = .output

theorem ofKind_concat (kind : Kind) (history : List Declaration) (d : Declaration) :
    ofKind kind (history ++ [d]) = if d.kind = kind then ofKind kind history ++ [d] else ofKind kind history := by
  unfold ofKind
  rw [List.filter_append]
  split
  next h => simp [h]
  next h => simp [h]

theorem numbered_concat (kind : Kind) (history : List Declaration) (d : Declaration) :
    numbered kind (history ++ [d]) = if d.kind = kind then
      numbered kind history ++ [d.event (UInt32.ofNat (ofKind kind history).length)] else numbered kind history := by
  unfold numbered
  rw [ofKind_concat]
  split
  next => rw [List.mapIdx_concat]
  next => rfl

theorem Buffers.new : Buffers CertBuilder.new [] := by
  constructor <;> rfl

private theorem ofNat_succ_length {α : Type} (xs : List α) (x : α) :
    UInt32.ofNat (xs ++ [x]).length = UInt32.ofNat xs.length + 1 := by
  rw [List.length_append, List.length_singleton, UInt32.ofNat_add]
  rfl

/-- One declaration. -/
theorem Buffers.declare {b : CertBuilder} {history : List Declaration} (h : Buffers b history) {d : Declaration}
    (hfirst : d.kind = .input → ∀ earlier ∈ history, earlier.kind ≠ .output) :
    ∃ b', d.declare b = .ok b' ∧ Buffers b' (history ++ [d]) := by
  have hopen : d.kind = .input → b.sealed = false := by
    intro hinput
    rw [h.isSealed, List.any_eq_false]
    intro earlier hmem
    simpa using hfirst hinput earlier hmem
  cases d with
  | input name bytes =>
    refine ⟨b.declareInput name bytes, ?_, ?_⟩
    · unfold Declaration.declare
      rw [hopen rfl]
      rfl
    · constructor
      case isSealed =>
        rw [List.any_append, ← h.isSealed]
        simp [CertBuilder.declareInput, kind]
      all_goals simp only [numbered_concat, ofKind_concat, kind, reduceCtorEq, if_false, if_true]
      · rw [← h.inputs]
        simp [CertBuilder.declareInput, event]
      · exact h.outputs
      · exact h.ops
      · exact h.activations
      · exact h.interventions
      · exact h.nextOp
      · exact h.nextAct
      · exact h.nextIntv
  | output name bytes =>
    refine ⟨b.declareOutput name bytes, rfl, ?_⟩
    constructor
    case isSealed =>
      rw [List.any_append, ← h.isSealed]
      simp [CertBuilder.declareOutput, kind]
    all_goals simp only [numbered_concat, ofKind_concat, kind, reduceCtorEq, if_false, if_true]
    · exact h.inputs
    · rw [← h.outputs]
      simp [CertBuilder.declareOutput, event]
    · exact h.ops
    · exact h.activations
    · exact h.interventions
    · exact h.nextOp
    · exact h.nextAct
    · exact h.nextIntv
  | op opName layer inputHash paramsHash outputHash =>
    refine ⟨_, rfl, ?_⟩
    constructor
    case isSealed =>
      rw [List.any_append, ← h.isSealed]
      simp [CertBuilder.declareOp, kind]
    all_goals simp only [numbered_concat, ofKind_concat, kind, reduceCtorEq, if_false, if_true]
    · exact h.inputs
    · exact h.outputs
    · rw [← h.ops, ← h.nextOp]
      simp [CertBuilder.declareOp, event]
    · exact h.activations
    · exact h.interventions
    · rw [ofNat_succ_length, ← h.nextOp]
      rfl
    · exact h.nextAct
    · exact h.nextIntv
  | activation tokenIndex layer checkpoint tensorHash =>
    refine ⟨_, rfl, ?_⟩
    constructor
    case isSealed =>
      rw [List.any_append, ← h.isSealed]
      simp [CertBuilder.declareActivation, kind]
    all_goals simp only [numbered_concat, ofKind_concat, kind, reduceCtorEq, if_false, if_true]
    · exact h.inputs
    · exact h.outputs
    · exact h.ops
    · rw [← h.activations, ← h.nextAct]
      simp [CertBuilder.declareActivation, event]
    · exact h.interventions
    · exact h.nextOp
    · rw [ofNat_succ_length, ← h.nextAct]
      rfl
    · exact h.nextIntv
  | intervention tokenIndex layer checkpoint replacementHash =>
    refine ⟨_, rfl, ?_⟩
    constructor
    case isSealed =>
      rw [List.any_append, ← h.isSealed]
      simp [CertBuilder.declareIntervention, kind]
    all_goals simp only [numbered_concat, ofKind_concat, kind, reduceCtorEq, if_false, if_true]
    · exact h.inputs
    · exact h.outputs
    · exact h.ops
    · exact h.activations
    · rw [← h.interventions, ← h.nextIntv]
      simp [CertBuilder.declareIntervention, event]
    · exact h.nextOp
    · exact h.nextAct
    · rw [ofNat_succ_length, ← h.nextIntv]
      rfl

/-- A whole history. -/
theorem Buffers.declareAll {b : CertBuilder} {before history : List Declaration} (h : Buffers b before)
    (hfirst : InputsFirst (before ++ history)) :
    ∃ b', declareAll b history = .ok b' ∧ Buffers b' (before ++ history) := by
  induction history generalizing b before with
  | nil => exact ⟨b, rfl, by rwa [List.append_nil]⟩
  | cons d history ih =>
    have hassoc : before ++ d :: history = (before ++ [d]) ++ history := by simp
    rw [hassoc] at hfirst ⊢
    obtain ⟨b', hdeclare, hbuffers⟩ := h.declare fun hinput earlier hmem houtput =>
      (List.pairwise_append.mp (List.pairwise_append.mp hfirst).1).2.2 earlier hmem d List.mem_cons_self houtput hinput
    obtain ⟨b'', hrest, hbuffers⟩ := ih hbuffers hfirst
    refine ⟨b'', ?_, hbuffers⟩
    unfold Declaration.declareAll
    rw [List.foldlM_cons, hdeclare]
    exact hrest

/-- Builders with the same buffers issue the same certificate. -/
theorem Buffers.sections {b b' : CertBuilder} {history history' : List Declaration} (h : Buffers b history)
    (h' : Buffers b' history') (hsame : ∀ kind, ofKind kind history' = ofKind kind history) :
    b'.toSections = b.toSections := by
  have hnumbered : ∀ kind, numbered kind history' = numbered kind history := by
    intro kind
    unfold numbered
    rw [hsame]
  have hfield : Function.Injective fun f : CertField => SinkEvent.input f.name f.bytes := by
    intro f g heq
    cases f
    cases g
    simpa using heq
  have hfield' : Function.Injective fun f : CertField => SinkEvent.output f.name f.bytes := by
    intro f g heq
    cases f
    cases g
    simpa using heq
  have hinputs := hfield.list_map ((h'.inputs.trans (hnumbered _)).trans h.inputs.symm)
  have houtputs := hfield'.list_map ((h'.outputs.trans (hnumbered _)).trans h.outputs.symm)
  have hops := List.map_injective_iff.mpr (fun _ _ heq => SinkEvent.op.inj heq)
    ((h'.ops.trans (hnumbered _)).trans h.ops.symm)
  have hactivations := List.map_injective_iff.mpr (fun _ _ heq => SinkEvent.activation.inj heq)
    ((h'.activations.trans (hnumbered _)).trans h.activations.symm)
  have hinterventions := List.map_injective_iff.mpr (fun _ _ heq => SinkEvent.intervention.inj heq)
    ((h'.interventions.trans (hnumbered _)).trans h.interventions.symm)
  rcases b with ⟨⟨_, _, _, _, _⟩, _, _, _, _⟩
  rcases b' with ⟨⟨_, _, _, _, _⟩, _, _, _, _⟩
  simp_all

/-! ### Sinks and events -/

theorem Buffers.calls {b : CertBuilder} {history : List Declaration} (h : Buffers b history) (tier : UInt8) :
    b.calls tier = eventsOf tier history := by
  unfold CertBuilder.calls CertBuilder.declared eventsOf
  rw [h.inputs, h.ops, h.activations, h.interventions, h.outputs]

/-- Each call of a `RecordingSink` appends its event. -/
theorem recordingSink_forM (events : List SinkEvent) (sink : RecordingSink) :
    (events.forM recordingSink.call).eval sink = (.ok (), { sink with events := sink.events ++ events }) := by
  induction events generalizing sink with
  | nil => rw [List.append_nil]; rfl
  | cons event events ih =>
    have hcall : (recordingSink.call event).eval sink = (.ok (), { sink with events := sink.events ++ [event] }) := by
      cases event <;> rfl
    rw [List.forM_eq_forM, List.forM_cons, eval_bind_ok hcall, ← List.forM_eq_forM, ih]
    simp

theorem recordingSink_finalize (blake3 : Blake3) (b : CertBuilder) (tier : UInt8) (sink : RecordingSink) :
    (b.finalizeWithSink blake3 recordingSink tier).eval sink =
      (.ok (b.finalize blake3, sink.finalizeId), { sink with events := sink.events ++ b.calls tier }) := by
  refine CertBuilder.finalizeWithSink_eq_ok.mpr ⟨{ sink with events := sink.events ++ b.declared tier }, ?_, ?_, rfl⟩
  · rw [CertBuilder.replay_eq]
    exact recordingSink_forM _ sink
  · unfold CertBuilder.calls
    rw [← List.append_assoc]
    rfl

theorem declaration?_event (d : Declaration) (index : UInt32) : (d.event index).declaration? = some d := by
  cases d <;> rfl

theorem declarations_numbered (kind : Kind) (history : List Declaration) :
    (numbered kind history).filterMap SinkEvent.declaration? = ofKind kind history := by
  unfold numbered
  induction ofKind kind history using List.reverseRecOn with
  | nil => rfl
  | append_singleton ds d ih =>
    rw [List.mapIdx_concat, List.filterMap_append, ih, List.filterMap_cons, declaration?_event]
    rfl

/-- A history in the order in which a sink is told of it. -/
def replayed (history : List Declaration) : List Declaration :=
  ofKind .input history ++ ofKind .op history ++ ofKind .activation history ++ ofKind .intervention history ++
    ofKind .output history

theorem declarations_eventsOf (tier : UInt8) (history : List Declaration) :
    (eventsOf tier history).filterMap SinkEvent.declaration? = replayed history := by
  unfold eventsOf replayed
  simp only [List.filterMap_append, declarations_numbered, List.filterMap_cons, List.filterMap_nil,
    SinkEvent.declaration?, List.nil_append, List.append_nil]

theorem kind_of_mem {kind : Kind} {history : List Declaration} {d : Declaration} (h : d ∈ ofKind kind history) :
    d.kind = kind := by
  unfold ofKind at h
  simpa using (List.mem_filter.mp h).2

theorem ofKind_ofKind (kind kind' : Kind) (history : List Declaration) :
    ofKind kind (ofKind kind' history) = if kind' = kind then ofKind kind history else [] := by
  split
  next h =>
    subst h
    unfold ofKind
    rw [List.filter_filter]
    simp
  next h =>
    refine List.filter_eq_nil_iff.mpr fun d hmem => ?_
    rw [kind_of_mem hmem]
    simpa using h

theorem ofKind_replayed (kind : Kind) (history : List Declaration) :
    ofKind kind (replayed history) = ofKind kind history := by
  have happend : ∀ ds es : List Declaration, ofKind kind (ds ++ es) = ofKind kind ds ++ ofKind kind es :=
    fun ds es => List.filter_append ds es
  unfold replayed
  simp only [happend, ofKind_ofKind]
  cases kind <;> simp

theorem inputsFirst_replayed (history : List Declaration) : InputsFirst (replayed history) := by
  refine List.pairwise_append.mpr ⟨?_, ?_, ?_⟩
  · -- no output comes before another kind
    refine List.pairwise_of_forall_mem_list fun earlier hearlier later _ houtput => ?_
    simp only [List.mem_append] at hearlier
    rcases hearlier with ((h | h) | h) | h <;> simp [kind_of_mem h] at houtput
  · refine List.pairwise_of_forall_mem_list fun earlier _ later hlater _ => ?_
    simp [kind_of_mem hlater]
  · intro earlier _ later hlater _
    simp [kind_of_mem hlater]

/-! ### The receipt of a history -/

/-- A record's index is its place among the records of its kind. -/
theorem Buffers.indices {b : CertBuilder} {history : List Declaration} (h : Buffers b history) (i : Nat) :
    (∀ r, b.ops[i]? = some r → r.opIndex = UInt32.ofNat i) ∧
      (∀ r, b.activations[i]? = some r → r.actIndex = UInt32.ofNat i) ∧
      ∀ r, b.interventions[i]? = some r → r.intvIndex = UInt32.ofNat i := by
  have hevent : ∀ (kind : Kind) (event : SinkEvent), (numbered kind history)[i]? = some event →
      ∃ d : Declaration, event = d.event (UInt32.ofNat i) := by
    intro kind event hget
    unfold numbered at hget
    rw [List.getElem?_mapIdx, Option.map_eq_some_iff] at hget
    obtain ⟨d, -, rfl⟩ := hget
    exact ⟨d, rfl⟩
  refine ⟨fun r hget => ?_, fun r hget => ?_, fun r hget => ?_⟩
  · obtain ⟨d, hd⟩ := hevent .op (.op r) (by rw [← h.ops, List.getElem?_map, hget]; rfl)
    cases d <;> simp only [event, reduceCtorEq, SinkEvent.op.injEq] at hd
    rw [hd]
  · obtain ⟨d, hd⟩ := hevent .activation (.activation r) (by rw [← h.activations, List.getElem?_map, hget]; rfl)
    cases d <;> simp only [event, reduceCtorEq, SinkEvent.activation.injEq] at hd
    rw [hd]
  · obtain ⟨d, hd⟩ := hevent .intervention (.intervention r) (by rw [← h.interventions, List.getElem?_map, hget]; rfl)
    cases d <;> simp only [event, reduceCtorEq, SinkEvent.intervention.injEq] at hd
    rw [hd]

/-- A history whose inputs come first is accepted. -/
theorem Buffers.ofHistory {history : List Declaration} (hinputs : InputsFirst history) :
    ∃ b, Declaration.declareAll CertBuilder.new history = .ok b ∧ Buffers b history := by
  simpa using Buffers.new.declareAll (by simpa using hinputs)

theorem declareAll_reordered (blake3 : Blake3) {b : CertBuilder} {history history' : List Declaration}
    (h : Buffers b history) (hinputs : InputsFirst history')
    (hsame : ∀ kind, ofKind kind history' = ofKind kind history) :
    ∃ b', declareAll CertBuilder.new history' = .ok b' ∧ b'.finalize blake3 = b.finalize blake3 := by
  obtain ⟨b', hdeclare, hbuffers⟩ := Buffers.ofHistory hinputs
  refine ⟨b', hdeclare, ?_⟩
  unfold CertBuilder.finalize
  rw [h.sections hbuffers hsame]

/-- The builder, the sink and the events describe the same receipt. -/
theorem receipt_agrees (blake3 : Blake3) (tier : UInt8) {history : List Declaration} (hinputs : InputsFirst history) :
    ∃ b, declareAll CertBuilder.new history = .ok b ∧
      (∀ history', InputsFirst history' → (∀ kind, ofKind kind history' = ofKind kind history) →
        ∃ b', declareAll CertBuilder.new history' = .ok b' ∧ b'.finalize blake3 = b.finalize blake3) ∧
      (∀ i, (∀ r, b.ops[i]? = some r → r.opIndex = UInt32.ofNat i) ∧
        (∀ r, b.activations[i]? = some r → r.actIndex = UInt32.ofNat i) ∧
        ∀ r, b.interventions[i]? = some r → r.intvIndex = UInt32.ofNat i) ∧
      (∀ (σ ε : Type) (sink : CertSink σ ε) (s s' : σ) (r : Cert × UInt64),
        (b.finalizeWithSink blake3 sink tier).eval s = (.ok r, s') →
          r.1 = b.finalize blake3 ∧
            ∃ t, (b.replay sink tier).eval s = (.ok (), t) ∧ sink.onFinalize.eval t = (.ok r.2, s')) ∧
      (∀ sink : RecordingSink, (b.finalizeWithSink blake3 recordingSink tier).eval sink =
        (.ok (b.finalize blake3, sink.finalizeId), { sink with events := sink.events ++ eventsOf tier history })) ∧
      digestFromEvents blake3 (eventsOf tier history) = .ok (b.finalize blake3).digest ∧
      ∃ b', declareAll CertBuilder.new ((eventsOf tier history).filterMap SinkEvent.declaration?) = .ok b' ∧
        b'.finalize blake3 = b.finalize blake3 := by
  obtain ⟨b, hdeclare, hbuffers⟩ := Buffers.ofHistory hinputs
  refine ⟨b, hdeclare, fun history' => declareAll_reordered blake3 hbuffers, hbuffers.indices, ?_, ?_, ?_, ?_⟩
  · intro σ ε sink s s' r hrun
    obtain ⟨t, hreplay, hfinalize, hcert⟩ := CertBuilder.finalizeWithSink_eq_ok.mp hrun
    exact ⟨hcert, t, hreplay, hfinalize⟩
  · intro sink
    rw [recordingSink_finalize, hbuffers.calls]
  · rw [← hbuffers.calls, digestFromEvents_calls]
  · rw [declarations_eventsOf]
    exact declareAll_reordered blake3 hbuffers (inputsFirst_replayed history) fun kind => ofKind_replayed kind history

/-- A history of every kind, out of the order of the receipt. -/
def mixedHistory : List Declaration :=
  [.op "wq" 0 (Vector.replicate 32 1) (Vector.replicate 32 2) (Vector.replicate 32 3), .input "model_id" [7],
    .intervention 0 0 "post_embed" (Vector.replicate 32 6), .activation 0 0 "post_embed" (Vector.replicate 32 4),
    .output "output_tokens" [], .op "wk" 0 (Vector.replicate 32 1) (Vector.replicate 32 2) (Vector.replicate 32 5)]

/-- A digest that every byte of the stream and its place enter. -/
def rollingHash : Blake3 := fun stream =>
  Vector.ofFn fun i => stream.foldl (fun sum byte => 31 * sum + byte) (UInt8.ofNat i.val)

theorem receipt_agrees_mixed :
    ∃ b, declareAll CertBuilder.new mixedHistory = .ok b ∧
      digestFromEvents rollingHash (eventsOf 7 mixedHistory) = .ok (b.finalize rollingHash).digest := by
  obtain ⟨b, hdeclare, -, -, -, -, hdigest, -⟩ := @receipt_agrees rollingHash 7 mixedHistory (by unfold InputsFirst; decide)
  exact ⟨b, hdeclare, hdigest⟩

end VitniTensor
