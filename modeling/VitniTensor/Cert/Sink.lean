import VitniTensor.Cert.Builder
import VitniTensor.Lib.Exec

/-!
# Sinks

A sink is a stateful consumer of the declarations of a certificate. `finalize_with_sink`
replays them in a fixed order and stops at the first call that the sink refuses.
-/

namespace VitniTensor

open Exec

structure CertSink (σ ε : Type) where
  onRequest : UInt8 → Exec σ ε Unit
  onInput : String → List UInt8 → Exec σ ε Unit
  onOp : OpRecord → Exec σ ε Unit := fun _ => pure ()
  onActivation : ActivationRecord → Exec σ ε Unit := fun _ => pure ()
  onIntervention : InterventionRecord → Exec σ ε Unit := fun _ => pure ()
  onOutput : String → List UInt8 → Exec σ ε Unit
  onFinalize : Exec σ ε UInt64

def nullSink : CertSink Unit Empty where
  onRequest _ := pure ()
  onInput _ _ := pure ()
  onOutput _ _ := pure ()
  onFinalize := pure 0

inductive SinkEvent where
  | request (tier : UInt8)
  | input (name : String) (bytes : List UInt8)
  | op (record : OpRecord)
  | activation (record : ActivationRecord)
  | intervention (record : InterventionRecord)
  | output (name : String) (bytes : List UInt8)
  | finalize
  deriving DecidableEq, Repr

/-- The state of a `RecordingSink`. -/
structure RecordingSink where
  events : List SinkEvent
  finalizeId : UInt64
  deriving DecidableEq, Repr

def RecordingSink.push (event : SinkEvent) : Exec RecordingSink Empty Unit :=
  update fun sink => { sink with events := sink.events ++ [event] }

def recordingSink : CertSink RecordingSink Empty where
  onRequest tier := RecordingSink.push (.request tier)
  onInput name bytes := RecordingSink.push (.input name bytes)
  onOp record := RecordingSink.push (.op record)
  onActivation record := RecordingSink.push (.activation record)
  onIntervention record := RecordingSink.push (.intervention record)
  onOutput name bytes := RecordingSink.push (.output name bytes)
  onFinalize := do
    RecordingSink.push .finalize
    let sink ← state
    pure sink.finalizeId

variable {σ ε : Type}

/-- The calls of `finalize_with_sink` before `on_finalize`. -/
def CertBuilder.replay (b : CertBuilder) (sink : CertSink σ ε) (tier : UInt8) : Exec σ ε Unit := do
  sink.onRequest tier
  b.inputs.forM fun f => sink.onInput f.name f.bytes
  b.ops.forM sink.onOp
  b.activations.forM sink.onActivation
  b.interventions.forM sink.onIntervention
  b.outputs.forM fun f => sink.onOutput f.name f.bytes

def CertBuilder.finalizeWithSink (blake3 : Blake3) (b : CertBuilder) (sink : CertSink σ ε)
    (tier : UInt8) : Exec σ ε (Cert × UInt64) := do
  b.replay sink tier
  let certId ← sink.onFinalize
  pure (b.finalize blake3, certId)

end VitniTensor
