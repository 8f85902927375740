import VitniTensor.Inference.Driver
import VitniTensor.Model.Forward
import VitniTensor.Model.ForwardQuantized

/-!
# Complete runs

The entry points that own the state of the forward pass: it is allocated for the run and gone
afterwards.
-/

namespace VitniTensor

open Outcome Exec

variable {F σ ε : Type} [F32 F]

/-- The generation loop on a fresh `RunState`. -/
def issueFresh (blake3 : Blake3) (cfg : Config) (weightsBlobHash : Hash) (req : Request)
    (sink : CertSink σ ε) (tier : UInt8) (setup : RunState F → RunState F)
    (forward : Forward (RunState F) F) : Exec σ (RunError ε) (Generation × UInt64) := do
  let run ← mapErr RunError.inference (lift (RunState.new cfg))
  withLocal (setup run) (runQuantizedWithForward blake3 cfg weightsBlobHash req sink tier forward)

/-- `run_with_sink`: the same loop around the F32 forward pass. -/
def runWithSink (blake3 : Blake3) (cfg : Config) (weights : Weights F) (weightsBlobHash : Hash)
    (req : Request) (sink : CertSink σ ε) (tier : UInt8) :
    Exec σ (RunError ε) (Generation × UInt64) :=
  issueFresh blake3 cfg weightsBlobHash req sink tier id (DensePass.step cfg weights)

def runQuantizedWithSink (build : Build) (blake3 : Blake3) (cfg : Config)
    (weights : QuantizedWeights F) (weightsBlobHash : Hash) (req : Request) (sink : CertSink σ ε)
    (tier : UInt8) : Exec σ (RunError ε) (Generation × UInt64) :=
  issueFresh blake3 cfg weightsBlobHash req sink tier id (step build blake3 cfg weights)

/-- The entry points without a sink: a `NullSink` never refuses. -/
def withoutSink (run : Exec Unit (RunError Empty) (Generation × UInt64)) : Res Generation :=
  match (run.eval ()).1 with
  | .ok (outcome, _) => .ok outcome
  | .error (.err (.inference e)) => .error (.err e)
  | .error (.panic p) => .error (.panic p)

def run (blake3 : Blake3) (cfg : Config) (weights : Weights F) (weightsBlobHash : Hash)
    (req : Request) : Res Generation :=
  withoutSink (runWithSink blake3 cfg weights weightsBlobHash req nullSink 0)

def runQuantized (build : Build) (blake3 : Blake3) (cfg : Config) (weights : QuantizedWeights F)
    (weightsBlobHash : Hash) (req : Request) : Res Generation :=
  withoutSink (runQuantizedWithSink build blake3 cfg weights weightsBlobHash req nullSink 0)

def runQuantizedRegime3 (build : Build) (blake3 : Blake3) (cfg : Config)
    (weights : QuantizedWeights F) (weightsBlobHash : Hash) (req : Request) : Res Generation :=
  withoutSink (issueFresh blake3 cfg weightsBlobHash req nullSink 0 (RunState.setRegime · 3)
    (step build blake3 cfg weights))

end VitniTensor
