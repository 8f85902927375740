import VitniTensor.Model.Config
import VitniTensor.Tensor.Basic

/-!
# Run state

The key and value caches, flat over `[n_layers, seq_len, kv_dim]`, and the numeric regime.
-/

namespace VitniTensor

open Outcome

variable {F : Type} [F32 F]

structure RunState (F : Type) where
  keyCache : List F
  valueCache : List F
  regime : UInt8

namespace RunState

def new (cfg : Config) : Res (RunState F) := do
  let rows ← word (cfg.nLayers * cfg.seqLen)
  let kvDim ← cfg.kvDim
  let kvTotal ← word (rows * kvDim)
  let keyCache ← zeroVec kvTotal
  let valueCache ← zeroVec kvTotal
  pure ⟨keyCache, valueCache, 2⟩

def setRegime (s : RunState F) (regime : UInt8) : RunState F :=
  { s with regime := regime }

end RunState

end VitniTensor
