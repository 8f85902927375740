import VitniTensor.Lib.Mirror
import VitniTensor.Model.Custody
import VitniTensor.Model.Forward

/-!
# Accelerators

The F32 passes send their matrix products, and some of their other operations, through an accelerator. One
that returns what the CPU returns changes nothing about a step, whatever it does besides; one that counts sees
as many operations as the architecture has.
-/

namespace VitniTensor

open Outcome Exec

variable {F A E : Type} [F32 F]

/-- The operations of an accelerator, with a state and errors of its own. -/
structure Accelerator (F A E : Type) where
  /-- `From<Error>` -/
  fromError : Error → E
  matmul : Tensor F → Tensor F → Exec A E (Tensor F)
  softmaxLastDim : Tensor F → Exec A E (Tensor F)
  rmsNorm : Tensor F → Tensor F → F → Exec A E (Tensor F)
  silu : Tensor F → Exec A E (Tensor F)

def cpuAccelerator : Accelerator F Unit Error where
  fromError := id
  matmul x y := lift (x.matmul y)
  softmaxLastDim t := lift t.softmaxLastDim
  rmsNorm x w eps := lift (x.rmsNorm w eps)
  silu t := lift t.silu

/-- An accelerator, and what an architecture of the F32 pass does in its own way. -/
structure Architecture (F A E : Type) extends Accelerator F A E where
  /-- Of an entry of the embedding, in a model of the given width. -/
  scale : Nat → F → F
  norm : Tensor F → Tensor F → Exec A E (Tensor F)
  act : Tensor F → Exec A E (Tensor F)

/-- A part of a step. -/
abbrev AccelStep (F A E α : Type) := Exec (RunState F × A) E α

namespace Architecture

variable (arch : Architecture F A E) (p : DensePass F)

/-- What is not dispatched; `?` converts its errors. -/
def host {α : Type} (m : DenseStep F α) : AccelStep F A E α :=
  mapErr arch.fromError (onFst m)

def project (x : Tensor F) (w : List F) (outDim inDim : Nat) : AccelStep F A E (Tensor F) := do
  let w ← arch.host (lift (DensePass.sliceToTensor w [outDim, inDim]))
  let wT ← arch.host (lift (DensePass.transpose2d w outDim inDim))
  onSnd (arch.matmul x wT)

def preNorm (x : Tensor F) (w : List F) (dim : Nat) : AccelStep F A E (Tensor F) := do
  let w ← arch.host (lift (DensePass.sliceToTensor w [dim]))
  onSnd (arch.norm x w)

/-- Q, K and V of a layer. -/
def queryKeyValue (layer : Nat) (x : Tensor F) : AccelStep F A E (Tensor F × Tensor F × Tensor F) := do
  let rmsW ← arch.host (lift (DensePass.layerSlice p.weights.rmsAttWeight layer p.cfg.dim))
  let xb ← arch.preNorm x rmsW p.cfg.dim
  let xb2d ← arch.host (lift (DensePass.xbTo2d xb p.cfg.dim))
  let wq ← arch.host (lift (DensePass.layerSlice p.weights.wq layer (p.cfg.dim * p.cfg.dim)))
  let q ← arch.project xb2d wq p.cfg.dim p.cfg.dim
  let wk ← arch.host (lift (DensePass.layerSlice p.weights.wk layer (p.cfg.dim * p.kvDim)))
  let k ← arch.project xb2d wk p.kvDim p.cfg.dim
  let wv ← arch.host (lift (DensePass.layerSlice p.weights.wv layer (p.cfg.dim * p.kvDim)))
  let v ← arch.project xb2d wv p.kvDim p.cfg.dim
  pure (q, k, v)

/-- One head, written to its part of `out`. -/
def attendHead (layer : Nat) (q keys values : List F) (h : Nat) (out : List F) : AccelStep F A E (List F) := do
  let att ← arch.host (lift (collectRange (p.pos + 1) (p.score layer q keys h)))
  let att ← arch.host (lift (DensePass.sliceToTensor att [p.pos + 1]))
  let probs ← onSnd (arch.softmaxLastDim att)
  let probs ← arch.host (lift (DensePass.tensorAsF32 probs))
  arch.host (lift (forRange (p.pos + 1) (p.addPosition layer probs values h) out))

def attend (layer : Nat) (q keys values : List F) : AccelStep F A E (List F) := do
  let out ← arch.host (lift (zeroVec p.cfg.dim))
  forRange p.cfg.nHeads (arch.attendHead p layer q keys values) out

/-- Output projection and residual. -/
def attnOutput (layer : Nat) (x : Tensor F) (xbOut : List F) : AccelStep F A E (Tensor F) := do
  let xbAttn ← arch.host (lift (DensePass.sliceToTensor xbOut [1, p.cfg.dim]))
  let wo ← arch.host (lift (DensePass.layerSlice p.weights.wo layer (p.cfg.dim * p.cfg.dim)))
  let xb2 ← arch.project xbAttn wo p.cfg.dim p.cfg.dim
  let xb2 ← arch.host (lift (DensePass.squeezeTo1d xb2 p.cfg.dim))
  arch.host (lift (x.add xb2))

/-- The FFN sublayer and its residual. -/
def feedForward (layer : Nat) (x : Tensor F) : AccelStep F A E (Tensor F) := do
  let rmsFfn ← arch.host (lift (DensePass.layerSlice p.weights.rmsFfnWeight layer p.cfg.dim))
  let xb ← arch.preNorm x rmsFfn p.cfg.dim
  let xb2d ← arch.host (lift (DensePass.xbTo2d xb p.cfg.dim))
  let w1 ← arch.host (lift (DensePass.layerSlice p.weights.w1 layer (p.cfg.dim * p.cfg.hiddenDim)))
  let w1 ← arch.host (lift (DensePass.sliceToTensor w1 [p.cfg.hiddenDim, p.cfg.dim]))
  let w1T ← arch.host (lift (DensePass.transpose2d w1 p.cfg.hiddenDim p.cfg.dim))
  let w3 ← arch.host (lift (DensePass.layerSlice p.weights.w3 layer (p.cfg.dim * p.cfg.hiddenDim)))
  let w3 ← arch.host (lift (DensePass.sliceToTensor w3 [p.cfg.hiddenDim, p.cfg.dim]))
  let w3T ← arch.host (lift (DensePass.transpose2d w3 p.cfg.hiddenDim p.cfg.dim))
  let gate ← onSnd (arch.matmul xb2d w1T)
  let up ← onSnd (arch.matmul xb2d w3T)
  let gateAct ← onSnd (arch.act gate)
  let inner ← arch.host (lift (gateAct.mul up))
  let w2 ← arch.host (lift (DensePass.layerSlice p.weights.w2 layer (p.cfg.dim * p.cfg.hiddenDim)))
  let down ← arch.project inner w2 p.cfg.dim p.cfg.hiddenDim
  let down ← arch.host (lift (DensePass.squeezeTo1d down p.cfg.dim))
  arch.host (lift (x.add down))

def layerStep (layer : Nat) (x : Tensor F) : AccelStep F A E (Tensor F) := do
  let (q, k, v) ← arch.queryKeyValue p layer x
  arch.host (p.cacheRow layer k v)
  let q ← arch.host (p.rope layer q)
  let run ← arch.host state
  let xbOut ← arch.attend p layer q run.keyCache run.valueCache
  let x ← arch.attnOutput p layer x xbOut
  arch.feedForward p layer x

/-- The scaled row of the embedding table for `token`. -/
def embed (token : UInt32) : AccelStep F A E (Tensor F) := do
  let emb ← arch.host (lift (DensePass.layerSlice p.weights.tokenEmbeddingTable token.toNat p.cfg.dim))
  arch.host (lift (DensePass.sliceToTensor (emb.map (arch.scale p.cfg.dim)) [p.cfg.dim]))

def logits (x : Tensor F) : AccelStep F A E (Tensor F) := do
  let xFinal ← arch.preNorm x p.weights.rmsFinalWeight p.cfg.dim
  let xFinal2d ← arch.host (lift (DensePass.xbTo2d xFinal p.cfg.dim))
  let logits ← arch.project xFinal2d p.weights.wcls p.cfg.vocabSize p.cfg.dim
  arch.host (lift (DensePass.squeezeTo1d logits p.cfg.vocabSize))

def forward (token : UInt32) : AccelStep F A E (Tensor F) := do
  let x ← arch.embed p token
  let x ← forRange p.cfg.nLayers (arch.layerStep p) x
  arch.logits p x

/-- A step of the architecture. -/
def step (cfg : Config) (weights : Weights F) (token : UInt32) (pos : Nat) : AccelStep F A E (Tensor F) := do
  let p ← arch.host (lift (DensePass.of cfg weights pos))
  arch.forward p token

/-- `forward::step_with_accel` -/
def llama (accel : Accelerator F A E) : Architecture F A E where
  toAccelerator := accel
  scale _ := id
  norm x w := accel.rmsNorm x w rmsEpsilon
  act := accel.silu

end Architecture

/-- `forward::step_with_accel` -/
def DensePass.stepWithAccel (accel : Accelerator F A E) (cfg : Config) (weights : Weights F) (token : UInt32) (pos : Nat) :
    AccelStep F A E (Tensor F) :=
  (Architecture.llama accel).step cfg weights token pos

/-- A step on each call, a token at its position. -/
def accelAll (step : UInt32 → Nat → AccelStep F A E (Tensor F)) :
    List (UInt32 × Nat) → AccelStep F A E (List (Tensor F))
  | [] => pure []
  | call :: calls => do
    let y ← step call.1 call.2
    let ys ← accelAll step calls
    pure (y :: ys)

/-! ### The same step without an accelerator -/

/-- What an architecture does in its own way, on the CPU. -/
structure CpuArchitecture (F : Type) where
  scale : Nat → F → F
  norm : Tensor F → Tensor F → Res (Tensor F)
  act : Tensor F → Res (Tensor F)

namespace CpuArchitecture

variable (cpu : CpuArchitecture F) (p : DensePass F)

def preNorm (x : Tensor F) (w : List F) (dim : Nat) : Res (Tensor F) := do
  let w ← DensePass.sliceToTensor w [dim]
  cpu.norm x w

/-- Q, K and V of a layer. -/
def queryKeyValue (layer : Nat) (x : Tensor F) : Res (Tensor F × Tensor F × Tensor F) := do
  let rmsW ← DensePass.layerSlice p.weights.rmsAttWeight layer p.cfg.dim
  let xb ← cpu.preNorm x rmsW p.cfg.dim
  let xb2d ← DensePass.xbTo2d xb p.cfg.dim
  let wq ← DensePass.layerSlice p.weights.wq layer (p.cfg.dim * p.cfg.dim)
  let q ← DensePass.project xb2d wq p.cfg.dim p.cfg.dim
  let wk ← DensePass.layerSlice p.weights.wk layer (p.cfg.dim * p.kvDim)
  let k ← DensePass.project xb2d wk p.kvDim p.cfg.dim
  let wv ← DensePass.layerSlice p.weights.wv layer (p.cfg.dim * p.kvDim)
  let v ← DensePass.project xb2d wv p.kvDim p.cfg.dim
  pure (q, k, v)

/-- The FFN sublayer and its residual. -/
def feedForward (layer : Nat) (x : Tensor F) : Res (Tensor F) := do
  let rmsFfn ← DensePass.layerSlice p.weights.rmsFfnWeight layer p.cfg.dim
  let xb ← cpu.preNorm x rmsFfn p.cfg.dim
  let xb2d ← DensePass.xbTo2d xb p.cfg.dim
  let w1 ← DensePass.layerSlice p.weights.w1 layer (p.cfg.dim * p.cfg.hiddenDim)
  let w1 ← DensePass.sliceToTensor w1 [p.cfg.hiddenDim, p.cfg.dim]
  let w1T ← DensePass.transpose2d w1 p.cfg.hiddenDim p.cfg.dim
  let w3 ← DensePass.layerSlice p.weights.w3 layer (p.cfg.dim * p.cfg.hiddenDim)
  let w3 ← DensePass.sliceToTensor w3 [p.cfg.hiddenDim, p.cfg.dim]
  let w3T ← DensePass.transpose2d w3 p.cfg.hiddenDim p.cfg.dim
  let gate ← xb2d.matmul w1T
  let up ← xb2d.matmul w3T
  let gateAct ← cpu.act gate
  let inner ← gateAct.mul up
  let w2 ← DensePass.layerSlice p.weights.w2 layer (p.cfg.dim * p.cfg.hiddenDim)
  let down ← DensePass.project inner w2 p.cfg.dim p.cfg.hiddenDim
  let down ← DensePass.squeezeTo1d down p.cfg.dim
  x.add down

def layerStep (layer : Nat) (x : Tensor F) : DenseStep F (Tensor F) := do
  let (q, k, v) ← lift (cpu.queryKeyValue p layer x)
  p.cacheRow layer k v
  let q ← p.rope layer q
  let run ← state
  let xbOut ← lift (p.attend layer q run.keyCache run.valueCache)
  let x ← lift (p.attnOutput layer x xbOut)
  lift (cpu.feedForward p layer x)

def embed (token : UInt32) : Res (Tensor F) := do
  let emb ← DensePass.layerSlice p.weights.tokenEmbeddingTable token.toNat p.cfg.dim
  DensePass.sliceToTensor (emb.map (cpu.scale p.cfg.dim)) [p.cfg.dim]

def logits (x : Tensor F) : Res (Tensor F) := do
  let xFinal ← cpu.preNorm x p.weights.rmsFinalWeight p.cfg.dim
  let xFinal2d ← DensePass.xbTo2d xFinal p.cfg.dim
  let logits ← DensePass.project xFinal2d p.weights.wcls p.cfg.vocabSize p.cfg.dim
  DensePass.squeezeTo1d logits p.cfg.vocabSize

def forward (token : UInt32) : DenseStep F (Tensor F) := do
  let x ← lift (cpu.embed p token)
  let x ← forRange p.cfg.nLayers (cpu.layerStep p) x
  lift (cpu.logits p x)

def step (cfg : Config) (weights : Weights F) (token : UInt32) (pos : Nat) : DenseStep F (Tensor F) := do
  let p ← lift (DensePass.of cfg weights pos)
  cpu.forward p token

def llama : CpuArchitecture F where
  scale _ := id
  norm x w := x.rmsNorm w rmsEpsilon
  act := Tensor.silu

theorem llama_embed (token : UInt32) : llama.embed p token = p.embed token := by
  unfold embed DensePass.embed
  simp only [llama, List.map_id_fun, id_eq]

theorem llama_step (cfg : Config) (weights : Weights F) (token : UInt32) (pos : Nat) :
    llama.step cfg weights token pos = DensePass.step cfg weights token pos := by
  have hforward : ∀ p : DensePass F, llama.forward p token = p.forward token := by
    intro p
    unfold forward
    rw [llama_embed]
    rfl
  unfold step
  simp only [hforward]
  rfl

end CpuArchitecture

/-! ### Architectures that go along with the CPU -/

/-- What an operation adds to a measure of the accelerator. -/
structure Dispatch (M : Type) where
  matmul : M
  softmaxLastDim : M
  norm : M
  act : M

section Follows

variable {M : Type} [AddCommMonoid M]

/-- All that an architecture does in its own way goes along with `cpu`, and adds what `each` says. -/
structure Architecture.Follows (arch : Architecture F A E) (cpu : CpuArchitecture F) (Lost : Loss M E)
    (measure : A → M) (each : Dispatch M) : Prop where
  scale : arch.scale = cpu.scale
  act_shape : ∀ t z, cpu.act t = .ok z → z.shape = t.shape
  /-- A row is multiplied by a matrix whose entries a word counts. -/
  matmul : ∀ (x y : Tensor F) (k n : Nat), x.shape.dims = [1, k] → y.shape.dims = [k, n] → n * k < wordSize →
    Tracks Lost arch.fromError measure
      (onSnd (arch.matmul x y) : AccelStep F A E (Tensor F)) (lift (x.matmul y)) each.matmul
  softmaxLastDim : ∀ t : Tensor F, Tracks Lost arch.fromError measure
    (onSnd (arch.softmaxLastDim t) : AccelStep F A E (Tensor F)) (lift t.softmaxLastDim) each.softmaxLastDim
  norm : ∀ x w, Tracks Lost arch.fromError measure
    (onSnd (arch.norm x w) : AccelStep F A E (Tensor F)) (lift (cpu.norm x w)) each.norm
  act : ∀ t, Tracks Lost arch.fromError measure (onSnd (arch.act t) : AccelStep F A E (Tensor F)) (lift (cpu.act t)) each.act

/-- What a layer adds: seven projections, a softmax for every head, two norms and an activation. -/
def Dispatch.layer (each : Dispatch M) (nHeads : Nat) : M :=
  3 • each.matmul + each.norm + nHeads • each.softmaxLastDim + each.matmul +
    (3 • each.matmul + each.norm + each.act)

/-- What a step adds. -/
def Dispatch.step (each : Dispatch M) (nHeads nLayers : Nat) : M :=
  nLayers • each.layer nHeads + (each.norm + each.matmul)

namespace Architecture.Follows

variable {arch : Architecture F A E} {cpu : CpuArchitecture F} {Lost : Loss M E} {measure : A → M}
  {each : Dispatch M}

theorem project (h : arch.Follows cpu Lost measure each) {x : Tensor F} {inDim : Nat} (hx : x.shape.dims = [1, inDim])
    (w : List F) (outDim : Nat) :
    Tracks Lost arch.fromError measure (arch.project x w outDim inDim) (lift (DensePass.project x w outDim inDim))
      each.matmul := by
  refine (Tracks.plain _).liftBehind fun w _ => ?_
  refine (Tracks.plain _).liftBehind fun wT hwT => ?_
  obtain ⟨hdims, hcells⟩ := DensePass.transpose2d_dims hwT
  exact h.matmul x wT inDim outDim hx hdims hcells

theorem preNorm (h : arch.Follows cpu Lost measure each) (x : Tensor F) (w : List F) (dim : Nat) :
    Tracks Lost arch.fromError measure (arch.preNorm x w dim) (lift (cpu.preNorm x w dim)) each.norm :=
  (Tracks.plain _).liftBehind fun w _ => h.norm x w

variable (p : DensePass F)

theorem queryKeyValue (h : arch.Follows cpu Lost measure each) (layer : Nat) (x : Tensor F) :
    Tracks Lost arch.fromError measure (arch.queryKeyValue p layer x) (lift (cpu.queryKeyValue p layer x))
      (3 • each.matmul + each.norm) := by
  have hparts : each.norm + (each.matmul + (each.matmul + (each.matmul + 0))) = 3 • each.matmul + each.norm := by
    rw [add_comm, add_zero, succ_nsmul', two_nsmul]
  rw [← hparts]
  refine (Tracks.plain _).liftBehind fun rmsW _ => ?_
  refine (h.preNorm x rmsW _).liftBind fun xb _ => ?_
  refine (Tracks.plain _).liftBehind fun xb2d hxb2d => ?_
  have hrow := DensePass.xbTo2d_dims hxb2d
  refine (Tracks.plain _).liftBehind fun wq _ => ?_
  refine (h.project hrow _ _).liftBind fun q _ => ?_
  refine (Tracks.plain _).liftBehind fun wk _ => ?_
  refine (h.project hrow _ _).liftBind fun k _ => ?_
  refine (Tracks.plain _).liftBehind fun wv _ => ?_
  exact (h.project hrow _ _).liftBind fun v _ => .pure _

theorem attendHead (h : arch.Follows cpu Lost measure each) (layer : Nat) (q keys values : List F) (head : Nat)
    (out : List F) :
    Tracks Lost arch.fromError measure (arch.attendHead p layer q keys values head out)
      (lift (p.attendHead layer q keys values head out)) each.softmaxLastDim := by
  rw [← add_zero each.softmaxLastDim]
  refine (Tracks.plain _).liftBehind fun att _ => ?_
  refine (Tracks.plain _).liftBehind fun att _ => ?_
  refine (h.softmaxLastDim att).liftBind fun probs _ => ?_
  refine (Tracks.plain _).liftBehind fun probs _ => ?_
  exact .plain _

theorem attend (h : arch.Follows cpu Lost measure each) (layer : Nat) (q keys values : List F) :
    Tracks Lost arch.fromError measure (arch.attend p layer q keys values) (lift (p.attend layer q keys values))
      (p.cfg.nHeads • each.softmaxLastDim) :=
  (Tracks.plain _).liftBehind fun out _ => .liftLoop (fun head out => h.attendHead p layer q keys values head out) out

theorem attnOutput (h : arch.Follows cpu Lost measure each) (layer : Nat) (x : Tensor F) (xbOut : List F) :
    Tracks Lost arch.fromError measure (arch.attnOutput p layer x xbOut) (lift (p.attnOutput layer x xbOut))
      each.matmul := by
  rw [← add_zero each.matmul]
  refine (Tracks.plain _).liftBehind fun xbAttn hxbAttn => ?_
  refine (Tracks.plain _).liftBehind fun wo _ => ?_
  refine (h.project (DensePass.sliceToTensor_dims hxbAttn) _ _).liftBind fun xb2 _ => ?_
  refine (Tracks.plain _).liftBehind fun xb2 _ => ?_
  exact .plain _

theorem feedForward (h : arch.Follows cpu Lost measure each) (layer : Nat) (x : Tensor F) :
    Tracks Lost arch.fromError measure (arch.feedForward p layer x) (lift (cpu.feedForward p layer x))
      (3 • each.matmul + each.norm + each.act) := by
  have hparts : each.norm + (each.matmul + (each.matmul + (each.act + (each.matmul + 0)))) =
      3 • each.matmul + each.norm + each.act := by
    rw [add_zero, succ_nsmul', two_nsmul]
    ac_rfl
  rw [← hparts]
  refine (Tracks.plain _).liftBehind fun rmsFfn _ => ?_
  refine (h.preNorm _ _ _).liftBind fun xb _ => ?_
  refine (Tracks.plain _).liftBehind fun xb2d hxb2d => ?_
  -- both halves are sliced and transposed before either is multiplied
  refine (Tracks.plain _).liftBehind fun w1 _ => ?_
  refine (Tracks.plain _).liftBehind fun w1 _ => ?_
  refine (Tracks.plain _).liftBehind fun w1T hw1T => ?_
  refine (Tracks.plain _).liftBehind fun w3 _ => ?_
  refine (Tracks.plain _).liftBehind fun w3 _ => ?_
  refine (Tracks.plain _).liftBehind fun w3T hw3T => ?_
  have hrow := DensePass.xbTo2d_dims hxb2d
  obtain ⟨hdims1, hcells1⟩ := DensePass.transpose2d_dims hw1T
  obtain ⟨hdims3, hcells3⟩ := DensePass.transpose2d_dims hw3T
  refine (h.matmul xb2d w1T _ _ hrow hdims1 hcells1).liftBind fun gate hgate => ?_
  refine (h.matmul xb2d w3T _ _ hrow hdims3 hcells3).liftBind fun up _ => ?_
  refine (h.act gate).liftBind fun gateAct hgateAct => ?_
  refine (Tracks.plain _).liftBehind fun inner hinner => ?_
  replace hinner : inner.shape.dims = [1, p.cfg.hiddenDim] := by
    rw [Tensor.mul_shape hinner, h.act_shape _ _ hgateAct]
    exact Tensor.matmul_dims hrow hdims1 hgate
  refine (Tracks.plain _).liftBehind fun w2 _ => ?_
  refine (h.project hinner _ _).liftBind fun down _ => ?_
  refine (Tracks.plain _).liftBehind fun down _ => ?_
  exact .plain _

theorem layerStep (h : arch.Follows cpu Lost measure each) (layer : Nat) (x : Tensor F) :
    Tracks Lost arch.fromError measure (arch.layerStep p layer x) (cpu.layerStep p layer x)
      (each.layer p.cfg.nHeads) := by
  unfold Dispatch.layer
  rw [add_assoc, add_assoc]
  refine (h.queryKeyValue p layer x).bind fun qkv => ?_
  refine (Tracks.plain (p.cacheRow layer qkv.2.1 qkv.2.2)).behind fun _ => ?_
  refine (Tracks.plain (p.rope layer qkv.1)).behind fun q => ?_
  refine (Tracks.plain state).behind fun run => ?_
  refine (h.attend p layer q run.keyCache run.valueCache).bind fun xbOut => ?_
  refine (h.attnOutput p layer x xbOut).bind fun x => ?_
  exact h.feedForward p layer x

theorem embed (h : arch.Follows cpu Lost measure each) (token : UInt32) :
    Tracks Lost arch.fromError measure (arch.embed p token) (lift (cpu.embed p token)) 0 := by
  refine (Tracks.plain _).liftBehind fun emb _ => ?_
  rw [h.scale]
  exact .plain _

theorem logits (h : arch.Follows cpu Lost measure each) (x : Tensor F) :
    Tracks Lost arch.fromError measure (arch.logits p x) (lift (cpu.logits p x)) (each.norm + each.matmul) := by
  rw [← add_zero each.matmul]
  refine (h.preNorm _ _ _).liftBind fun xFinal _ => ?_
  refine (Tracks.plain _).liftBehind fun xFinal2d hxFinal2d => ?_
  refine (h.project (DensePass.xbTo2d_dims hxFinal2d) _ _).liftBind fun logits _ => ?_
  exact .plain _

theorem forward (h : arch.Follows cpu Lost measure each) (token : UInt32) :
    Tracks Lost arch.fromError measure (arch.forward p token) (cpu.forward p token)
      (each.step p.cfg.nHeads p.cfg.nLayers) := by
  refine (h.embed p token).behind fun x => ?_
  refine (Tracks.loop (fun layer x => h.layerStep p layer x) x).bind fun x => ?_
  exact h.logits p x

theorem step (h : arch.Follows cpu Lost measure each) (cfg : Config) (weights : Weights F) (token : UInt32) (pos : Nat) :
    Tracks Lost arch.fromError measure (arch.step cfg weights token pos) (cpu.step cfg weights token pos)
      (each.step cfg.nHeads cfg.nLayers) := by
  refine Tracks.after fun p hp => ?_
  obtain ⟨kvDim, -, hp⟩ := bind_eq_ok.mp hp
  obtain ⟨kvMul, -, hp⟩ := bind_eq_ok.mp hp
  obtain ⟨headSize, -, hp⟩ := bind_eq_ok.mp hp
  cases hp
  exact h.forward _ token

/-- Over any calls. -/
theorem run (h : arch.Follows cpu Lost measure each) (cfg : Config) (weights : Weights F) (calls : List (UInt32 × Nat)) :
    Tracks Lost arch.fromError measure (accelAll (arch.step cfg weights) calls) (forwardAll (cpu.step cfg weights) calls)
      (calls.length • each.step cfg.nHeads cfg.nLayers) := by
  induction calls with
  | nil =>
    rw [List.length_nil, zero_nsmul]
    exact .pure []
  | cons call calls ih =>
    rw [List.length_cons, succ_nsmul', ← add_zero (calls.length • _)]
    exact (h.step cfg weights call.1 call.2).bind fun y => ih.bind fun ys => .pure (y :: ys)

end Architecture.Follows

/-- Runs of `forward::step_with_accel` and of `forward::step`. -/
theorem DensePass.tracks {accel : Accelerator F A E} {Lost : Loss M E} {measure : A → M} {each : Dispatch M}
    (h : (Architecture.llama accel).Follows CpuArchitecture.llama Lost measure each) (cfg : Config) (weights : Weights F)
    (calls : List (UInt32 × Nat)) :
    Tracks Lost accel.fromError measure (accelAll (DensePass.stepWithAccel accel cfg weights) calls)
      (forwardAll (DensePass.step cfg weights) calls) (calls.length • each.step cfg.nHeads cfg.nLayers) := by
  have hstep : CpuArchitecture.llama.step cfg weights = DensePass.step cfg weights :=
    funext₂ fun token pos => CpuArchitecture.llama_step cfg weights token pos
  rw [← hstep]
  exact h.run cfg weights calls

end Follows

/-! ### Accelerators that return what the CPU returns -/

/-- Its operations end as those of the CPU, whatever they do to its state. -/
structure Accelerator.Conforms (accel : Accelerator F A E) : Prop where
  matmul : ∀ x y, EndsIn accel.fromError (accel.matmul x y) (x.matmul y)
  softmaxLastDim : ∀ t, EndsIn accel.fromError (accel.softmaxLastDim t) t.softmaxLastDim
  rmsNorm : ∀ x w eps, EndsIn accel.fromError (accel.rmsNorm x w eps) (x.rmsNorm w eps)
  silu : ∀ t, EndsIn accel.fromError (accel.silu t) t.silu

/-- All that an architecture does in its own way ends as `cpu`, and nothing is measured. -/
abbrev Architecture.Agrees (arch : Architecture F A E) (cpu : CpuArchitecture F) : Prop :=
  @Architecture.Follows F A E _ PUnit PUnit.addCommGroup.toAddCommMonoid arch cpu Loss.never (fun _ => PUnit.unit)
    ⟨PUnit.unit, PUnit.unit, PUnit.unit, PUnit.unit⟩

theorem Accelerator.Conforms.llama_agrees {accel : Accelerator F A E} (h : accel.Conforms) :
    (Architecture.llama accel).Agrees CpuArchitecture.llama where
  scale := rfl
  act_shape _ _ := Tensor.mapF32_shape
  matmul x y _ _ _ _ _ := (h.matmul x y).mirroring
  softmaxLastDim t := (h.softmaxLastDim t).mirroring
  norm x w := (h.rmsNorm x w rmsEpsilon).mirroring
  act t := (h.silu t).mirroring

theorem cpuAccelerator_conforms : (cpuAccelerator : Accelerator F Unit Error).Conforms :=
  ⟨fun _ _ => .lift _, fun _ => .lift _, fun _ _ _ => .lift _, fun _ => .lift _⟩

/-- `forward::step` is the step with the CPU's accelerator. -/
theorem DensePass.step_eq (cfg : Config) (weights : Weights F) (token : UInt32) (pos : Nat) :
    DensePass.step cfg weights token pos = alone (DensePass.stepWithAccel cpuAccelerator cfg weights token pos) := by
  rw [← CpuArchitecture.llama_step]
  exact (cpuAccelerator_conforms.llama_agrees.step cfg weights token pos).mirrors.alone.symm

/-- A run with an accelerator that returns what the CPU returns is a run without one: it ends the same, up to the
type of errors, and leaves the same caches. -/
theorem accelerated_llama {accel : Accelerator F A E} (h : accel.Conforms) (cfg : Config) (weights : Weights F)
    (calls : List (UInt32 × Nat)) :
    Mirrors accel.fromError (accelAll (DensePass.stepWithAccel accel cfg weights) calls)
      (forwardAll (DensePass.step cfg weights) calls) :=
  Tracks.mirrors (DensePass.tracks h.llama_agrees cfg weights calls)

/-- A model of zeros: one layer of two heads that share a kv head. -/
def smallTables : Weights F where
  tokenEmbeddingTable := List.replicate 8 F32.zero
  rmsAttWeight := List.replicate 4 F32.zero
  wq := List.replicate 16 F32.zero
  wk := List.replicate 8 F32.zero
  wv := List.replicate 8 F32.zero
  wo := List.replicate 16 F32.zero
  rmsFfnWeight := List.replicate 4 F32.zero
  w1 := List.replicate 8 F32.zero
  w2 := List.replicate 8 F32.zero
  w3 := List.replicate 8 F32.zero
  rmsFinalWeight := List.replicate 4 F32.zero
  wcls := List.replicate 8 F32.zero

theorem accelerated_llama_cpu :
    Mirrors id (accelAll (DensePass.stepWithAccel cpuAccelerator twoHeads smallTables) [(1, 0), (0, 1)])
      (forwardAll (DensePass.step twoHeads (smallTables : Weights Cost)) [(1, 0), (0, 1)]) :=
  accelerated_llama cpuAccelerator_conforms twoHeads smallTables [(1, 0), (0, 1)]

end VitniTensor
