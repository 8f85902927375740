import VitniTensor.Model.CausalTotal

/-!
# Compositions of operations

A value of a step as the operations behind it, and the composition that the quantized forward
pass applies.
-/

namespace VitniTensor

open Outcome

variable {F : Type} [F32 F]

/-- The linears of the engine: one for each dtype, and two more for regime 3. -/
inductive LinearOp where
  | q4_0
  | f32 (aligned : Bool)
  | q4k
  | q6kInteger
  | q8_0
  | q5_0
  | q4kIntegerRs
  | q6kIntegerRs
  | notImplemented
  deriving DecidableEq, Repr

/-- The operation of `linear_dispatch`. -/
def LinearOp.of (w : QuantTensor) (regime : UInt8) : LinearOp :=
  match w.dtype with
  | .q4_0 => .q4_0
  | .f32 => .f32 w.aligned
  | .q4_k => if regime = 3 then .q4kIntegerRs else .q4k
  | .q6_k => if regime = 3 then .q6kIntegerRs else .q6kInteger
  | .q8_0 => .q8_0
  | .q5_0 => .q5_0
  | .f16 | .other _ => .notImplemented

/-- Two cells of a vector, and the cosine and sine that they are rotated by. -/
structure PairTurn (F : Type) where
  first : Nat
  second : Nat
  cos : F
  sin : F

/-- What a buffer holds, as the operations applied to get there. Attention leaves `width` floats. -/
inductive Value (F : Type) where
  | unknown
  | embedding
  | rms (eps : F) (w : List F) (feat : Nat) (x : Value F)
  | linear (op : LinearOp) (w : List UInt8) (k n : Nat) (x : Value F)
  | bias (n : Nat) (b : List F) (x : Value F)
  | rotate (turns : List (PairTurn F)) (x : Value F)
  | attention (width layer nHeads headSize kvDim kvMul pos : Nat) (q k v : Value F)
  | siluMul (n : Nat) (gate up : Value F)
  | add (x y : Value F)

namespace Pass

variable (p : Pass F)

/-! ### The composition of a step -/

def linearValue (x : Value F) (w : QuantTensor) (inFeat outFeat : Nat) : Value F :=
  .linear (.of w p.regime) w.bytes inFeat outFeat x

/-- A bias goes as far as the shorter of the two. -/
def biasValue (n : Nat) (b : Option (List F)) (v : Value F) : Value F :=
  match b with
  | none => v
  | some b => .bias (min n b.length) b v

def normValue (ws : List F) (x : Value F) : Value F :=
  .rms p.weights.rmsEps ws p.cfg.dim x

/-- The pair of the split-half layout at `j` in head `h`. -/
def headTurn (h j : Nat) : PairTurn F :=
  ⟨h * p.headSize + j, h * p.headSize + j + p.headSize / 2, (p.angle (2 * j)).1, (p.angle (2 * j)).2⟩

/-- The split-half layout of `n` heads. -/
def headTurns (n : Nat) : List (PairTurn F) :=
  (List.range n).flatMap fun h => (List.range (p.headSize / 2)).map (p.headTurn h)

/-- The pair of the interleaved layout at `2 * m`. -/
def pairTurn (m : Nat) : PairTurn F :=
  ⟨2 * m, 2 * m + 1, (p.angle (2 * m % p.headSize)).1, (p.angle (2 * m % p.headSize)).2⟩

/-- The rotation of the query. -/
def qTurns : List (PairTurn F) :=
  if p.weights.ropeNeox then p.headTurns p.cfg.nHeads
  else (List.range ((p.cfg.dim + 1) / 2)).map p.pairTurn

/-- The rotation of the key: in the interleaved layout the pairs of the query that begin in `kv_dim`. -/
def kTurns : List (PairTurn F) :=
  if p.weights.ropeNeox then p.headTurns (p.kvDim / p.headSize)
  else ((List.range ((p.cfg.dim + 1) / 2)).filter (2 * · < p.kvDim)).map p.pairTurn

def qValue (blk : QuantLayer F) (x : Value F) : Value F :=
  .rotate p.qTurns
    (biasValue (p.cfg.nHeads * p.headSize) blk.bq
      (p.linearValue (p.normValue blk.rmsAttWeight x) blk.wq p.cfg.dim (p.cfg.nHeads * p.headSize)))

def kValue (blk : QuantLayer F) (x : Value F) : Value F :=
  .rotate p.kTurns
    (biasValue p.kvDim blk.bk
      (p.linearValue (p.normValue blk.rmsAttWeight x) blk.wk p.cfg.dim p.kvDim))

def vValue (blk : QuantLayer F) (x : Value F) : Value F :=
  biasValue p.kvDim blk.bv (p.linearValue (p.normValue blk.rmsAttWeight x) blk.wv p.cfg.dim p.kvDim)

def attendValue (layer : Nat) (blk : QuantLayer F) (x : Value F) : Value F :=
  .attention p.cfg.dim layer p.cfg.nHeads p.headSize p.kvDim p.kvMul p.pos (p.qValue blk x) (p.kValue blk x)
    (p.vValue blk x)

/-- The residual after attention. -/
def midValue (layer : Nat) (blk : QuantLayer F) (x : Value F) : Value F :=
  .add x (p.linearValue (p.attendValue layer blk x) blk.wo p.cfg.dim p.cfg.dim)

def innerValue (blk : QuantLayer F) (mid : Value F) : Value F :=
  .siluMul p.cfg.hiddenDim
    (p.linearValue (p.normValue blk.rmsFfnWeight mid) blk.w1 p.cfg.dim p.cfg.hiddenDim)
    (p.linearValue (p.normValue blk.rmsFfnWeight mid) blk.w3 p.cfg.dim p.cfg.hiddenDim)

/-- The residual after a layer. -/
def layerValue (layer : Nat) (blk : QuantLayer F) (x : Value F) : Value F :=
  let mid := p.midValue layer blk x
  .add mid (p.linearValue (p.innerValue blk mid) blk.w2 p.cfg.hiddenDim p.cfg.dim)

/-- The residual after the layers from `layer` on, and the rows they put in the caches. -/
def layersValue : (layer : Nat) → List (QuantLayer F) → Value F → Value F × List (Value F × Value F)
  | _, [], x => (x, [])
  | layer, blk :: blks, x =>
    let rest := layersValue (layer + 1) blks (p.layerValue layer blk x)
    (rest.1, (p.kValue blk x, p.vValue blk x) :: rest.2)

def logitsValue (x : Value F) : Value F :=
  p.linearValue (p.normValue p.weights.rmsFinalWeight x) p.lmHead.1 p.cfg.dim p.cfg.vocabSize

/-- The layers that a step goes through. -/
def blocks : List (QuantLayer F) :=
  p.weights.layers.take p.cfg.nLayers

end Pass

/-! ### Evaluation -/

/-- The arm of the engine under this name, on its output vector. -/
def LinearOp.arm (op : LinearOp) (build : Build) (x : List F) (w : List UInt8) (inFeat outFeat : Nat) (y : List F) :
    Res (List F) :=
  match op with
  | .q4_0 => linearQ4_0Cpu x w y 1 inFeat outFeat
  | .f32 aligned => linearF32 x ⟨[], .f32, w, aligned⟩ inFeat outFeat y
  | .q4k => dispatchQ4K build x w inFeat outFeat y
  | .q6kInteger => dispatchQ6K build x w inFeat outFeat y
  | .q8_0 => linearByRow q8_0RowBytes "linear_dispatch Q8_0: weight blob too small" dequantizeQ8_0
      x w inFeat outFeat y
  | .q5_0 => linearByRow q5_0RowBytes "linear_dispatch Q5_0: weight blob too small" dequantizeQ5_0
      x w inFeat outFeat y
  | .q4kIntegerRs => linearQ4KIntegerRs x w y 1 inFeat outFeat
  | .q6kIntegerRs => linearQ6KIntegerRs x w y 1 inFeat outFeat
  | .notImplemented => .error (.err (.notImplemented "forward_quantized::linear_dispatch"
      "weight dtype not Q4_0 / Q4_K / Q5_0 / Q6_K / Q8_0 / F32"))

/-- The linear of the engine under this name. -/
def LinearOp.run (op : LinearOp) (build : Build) (x : List F) (w : List UInt8) (inFeat outFeat : Nat) :
    Res (List F) := do
  let y ← zeroVec outFeat
  op.arm build x w inFeat outFeat y

theorem linearDispatch_eq_run (build : Build) (x : List F) (w : QuantTensor) (inFeat outFeat : Nat)
    (regime : UInt8) :
    linearDispatch build x w inFeat outFeat regime =
      (LinearOp.of w regime).run build x w.bytes inFeat outFeat := by
  unfold linearDispatch linearArms LinearOp.of LinearOp.run
  cases w.dtype with
  | q4_k | q6_k => by_cases hregime : regime = 3 <;> simp only [hregime, if_true, if_false] <;> rfl
  | _ => rfl

/-- Pair after pair. -/
def turned (turns : List (PairTurn F)) (xs : List F) : Res (List F) :=
  turns.foldlM (fun xs t => VitniTensor.rotate (t.cos, t.sin) t.first t.second xs) xs

namespace Value

/-- The numbers of a value, in a step of `p` for `token` that finds the caches of `s`. Attention reads
them with the row of this step in its place. -/
def eval (p : Pass F) (s : RunState F) (token : UInt32) : Value F → Res (List F)
  | unknown => panic .explicit
  | embedding => embeddingRow p.weights.tokenEmbeddingTable token.toNat p.cfg.dim
  | rms eps w feat x => do
    let x ← x.eval p s token
    let x ← vectorTensor x feat
    let y ← rmsNormSlice x w eps
    tensorAsF32 y
  | linear op w k n x => do
    let x ← x.eval p s token
    op.run p.build x w k n
  | bias n b x => do
    let x ← x.eval p s token
    pure (addBias x (some (b.take n)))
  | rotate turns x => do
    let x ← x.eval p s token
    turned turns x
  | attention width layer nHeads headSize kvDim kvMul pos q k v => do
    let q ← q.eval p s token
    let k ← k.eval p s token
    let v ← v.eval p s token
    let p := { p with cfg := { p.cfg with nHeads, dim := width }, headSize, kvDim, kvMul, pos }
    let keys ← copyInto s.keyCache (p.rowOff layer pos) (p.rowOff layer pos + kvDim) k
    let values ← copyInto s.valueCache (p.rowOff layer pos) (p.rowOff layer pos + kvDim) v
    p.attend layer q keys values
  | siluMul n gate up => do
    let gate ← gate.eval p s token
    let up ← up.eval p s token
    swiGlu gate up n
  | add x y => do
    let x ← x.eval p s token
    let y ← y.eval p s token
    let x ← vectorTensor x p.cfg.dim
    let y ← vectorTensor y p.cfg.dim
    let z ← x.add y
    tensorAsF32 z

end Value

/-! ### Parts of a composition -/

omit [F32 F] in
/-- A vector and its floats. -/
theorem vectorTensor_iff {xs : List F} {n : Nat} {x : Tensor F} :
    vectorTensor xs n = .ok x ↔ x.Is [n] xs := by
  have hrank : [n].length ≤ maxRank := (by decide : 1 ≤ 6)
  have hnew : Shape.new [n] = .ok ⟨[n], hrank⟩ := rfl
  unfold vectorTensor
  rw [hnew, ok_bind]
  constructor
  · intro h
    obtain ⟨hdata, hshape, -, hcpu⟩ := Tensor.fromF32_eq_ok h
    exact ⟨by rw [hshape], hcpu, hdata⟩
  · intro hx
    have hshape : x.shape = ⟨[n], hrank⟩ := by
      have hdims := hx.dims
      cases heq : x.shape
      rw [heq] at hdims
      cases hdims
      rfl
    obtain ⟨z, hz, his⟩ := hx.fromF32_ok rfl
    rw [hshape] at hz
    rw [hz, his.unique hx]

omit [F32 F] in
theorem Tensor.Is.tensorAsF32 {dims : List Nat} {xs : List F} {x : Tensor F} (hx : x.Is dims xs) :
    tensorAsF32 x = .ok xs := by
  unfold VitniTensor.tensorAsF32
  rw [hx.data]

/-- A sum of vectors is a vector. -/
theorem Tensor.Is.add_is {dims : List Nat} {xs ys : List F} {x y z : Tensor F} (hx : x.Is dims xs)
    (hy : y.Is dims ys) (hadd : x.add y = .ok z) : ∃ zs, z.Is dims zs := by
  obtain ⟨-, -, h⟩ := bind_eq_ok.mp hadd
  unfold Tensor.applyF32 at h
  rw [if_neg (not_not_intro hx.dtype), Tensor.isContiguous_eq, Tensor.isContiguous_eq, ok_bind, ok_bind,
    hx.data, hy.data] at h
  obtain ⟨hdata, hshape, -, hcpu⟩ := Tensor.fromF32_eq_ok h
  exact ⟨_, by rw [hshape]; exact hx.dims, hcpu, hdata⟩

/-- What is past the end of a vector is not added to it. -/
theorem addBias_take (v b : List F) : addBias v (some (b.take (min v.length b.length))) = addBias v (some b) := by
  unfold addBias
  dsimp only
  rw [List.length_take, Nat.min_eq_left (Nat.min_le_right _ _)]
  rcases Nat.le_total v.length b.length with hle | hle
  · rw [Nat.min_eq_left hle, List.drop_length, List.drop_eq_nil_of_le hle, List.append_nil, List.append_nil]
    apply List.ext_getElem?
    intro i
    rw [List.getElem?_zipWith, List.getElem?_zipWith, List.getElem?_take]
    by_cases hi : i < v.length
    · rw [if_pos hi]
    · rw [if_neg hi, List.getElem?_eq_none (by omega)]
  · rw [Nat.min_eq_right hle, List.take_length]

section Link

variable {p : Pass F} {s : RunState F} {token : UInt32}

/-- A value of the residual stream. -/
def Value.Denotes (p : Pass F) (s : RunState F) (token : UInt32) (v : Value F) (x : Tensor F) : Prop :=
  ∃ xs, v.eval p s token = .ok xs ∧ x.Is [p.cfg.dim] xs

theorem eval_normValue {v : Value F} {x : Tensor F} (hv : v.Denotes p s token x) {ws xb : List F}
    (h : Causal.normalized p x ws = .ok xb) : (p.normValue ws v).eval p s token = .ok xb := by
  obtain ⟨xs, heval, hx⟩ := hv
  unfold Pass.normValue
  rw [Value.eval, heval, ok_bind, vectorTensor_iff.mpr hx]
  exact h

theorem eval_linearValue {v : Value F} {xs ys : List F} (hv : v.eval p s token = .ok xs)
    {w : QuantTensor} {inFeat outFeat : Nat} (h : Causal.linear p xs w inFeat outFeat = .ok ys) :
    (p.linearValue v w inFeat outFeat).eval p s token = .ok ys := by
  unfold Pass.linearValue
  rw [Value.eval, hv, ok_bind, ← linearDispatch_eq_run]
  exact h

theorem eval_biasValue {v : Value F} {xs : List F} (hv : v.eval p s token = .ok xs) {n : Nat}
    (hn : xs.length = n) (b : Option (List F)) :
    (Pass.biasValue n b v).eval p s token = .ok (addBias xs b) := by
  unfold Pass.biasValue
  cases b with
  | none => exact hv
  | some b =>
    dsimp only
    rw [Value.eval, hv, ok_bind, ← hn, addBias_take]
    rfl

theorem eval_add {v w : Value F} {x y z : Tensor F} {ys : List F} (hv : v.Denotes p s token x)
    (hw : w.eval p s token = .ok ys) (hy : vectorTensor ys p.cfg.dim = .ok y) (hadd : x.add y = .ok z) :
    (Value.add v w).Denotes p s token z := by
  obtain ⟨xs, heval, hx⟩ := hv
  obtain ⟨zs, hz⟩ := hx.add_is (vectorTensor_iff.mp hy) hadd
  refine ⟨zs, ?_, hz⟩
  rw [Value.eval, heval, ok_bind, hw, ok_bind, vectorTensor_iff.mpr hx, ok_bind, hy, ok_bind, hadd, ok_bind,
    hz.tensorAsF32]

end Link

end VitniTensor
