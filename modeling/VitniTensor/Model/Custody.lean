import VitniTensor.Lib.Rows
import VitniTensor.Model.CacheFrame
import VitniTensor.Model.ParamsCache
import VitniTensor.Model.Told

/-!
# Chain of custody

A recorder over a run of steps. Its records are those of the steps, one behind the other, and the
records of a step are a chain: they name the operations of the model in their order, carry the hash
of the weight that was used, and the hash that one of them leaves is the hash that the next one
starts from.
-/

namespace VitniTensor

open Outcome Exec Rows

variable {F : Type} [F32 F]

/-! ### Runs -/

/-- A forward function on each call, a token at its position. -/
def forwardAll {φ : Type} (forward : UInt32 → Nat → Exec φ Error (Tensor F)) :
    List (UInt32 × Nat) → Exec φ Error (List (Tensor F))
  | [] => pure []
  | call :: calls => do
    let y ← forward call.1 call.2
    let ys ← forwardAll forward calls
    pure (y :: ys)

/-! ### Numbers -/

section Numbers

variable {α β : Type} {f : UInt32 → α → β}

/-- Items under consecutive numbers, which wrap around. -/
def numberFrom (f : UInt32 → α → β) : UInt32 → List α → List β
  | _, [] => []
  | i, x :: xs => f i x :: numberFrom f (i + 1) xs

theorem length_numberFrom (i : UInt32) (xs : List α) : (numberFrom f i xs).length = xs.length := by
  induction xs generalizing i with
  | nil => rfl
  | cons x xs ih => rw [numberFrom, List.length_cons, List.length_cons, ih]

private theorem number_succ (i : UInt32) (n : Nat) : i + 1 + UInt32.ofNat n = i + UInt32.ofNat (n + 1) := by
  rw [UInt32.add_assoc, UInt32.ofNat_add, UInt32.add_comm (UInt32.ofNat n)]
  rfl

theorem getElem?_numberFrom (i : UInt32) (xs : List α) (n : Nat) :
    (numberFrom f i xs)[n]? = xs[n]?.map (f (i + UInt32.ofNat n)) := by
  induction xs generalizing i n with
  | nil => rfl
  | cons x xs ih =>
    cases n with
    | zero =>
      rw [numberFrom, List.getElem?_cons_zero, List.getElem?_cons_zero]
      exact congrArg (fun j => some (f j x)) (UInt32.add_zero i).symm
    | succ n => rw [numberFrom, List.getElem?_cons_succ, List.getElem?_cons_succ, ih, number_succ]

theorem numberFrom_append (i : UInt32) (xs ys : List α) :
    numberFrom f i (xs ++ ys) = numberFrom f i xs ++ numberFrom f (i + UInt32.ofNat xs.length) ys := by
  induction xs generalizing i with
  | nil =>
    rw [List.nil_append, numberFrom, List.nil_append]
    exact congrArg (numberFrom f · ys) (UInt32.add_zero i).symm
  | cons x xs ih => rw [List.cons_append, numberFrom, numberFrom, ih, List.cons_append, List.length_cons, number_succ]

/-- What does not look at the number. -/
theorem map_numberFrom {γ : Type} {g : β → γ} {h : α → γ} (same : ∀ i x, g (f i x) = h x) (i : UInt32) (xs : List α) :
    (numberFrom f i xs).map g = xs.map h := by
  induction xs generalizing i with
  | nil => rfl
  | cons x xs ih => rw [numberFrom, List.map_cons, List.map_cons, same, ih]

end Numbers

/-! ### Records -/

def Operation.record (blake3 : Blake3) (paramsCache : BTreeMap Hash) (opIndex : UInt32) (o : Operation F) : OpRecord :=
  let zero : Hash := Vector.replicate 32 0
  { opIndex, opName := o.opName, layer := o.layer
    inputHash := hashF32Slice blake3 o.input
    paramsHash := if o.paramsKey.isEmpty then zero else (paramsCache[o.paramsKey]?).getD zero
    outputHash := hashF32Slice blake3 o.output }

def LensEntry.record (blake3 : Blake3) (actIndex : UInt32) (a : LensEntry F) : ActivationRecord :=
  ⟨actIndex, a.tokenIndex, a.layer, a.checkpoint, hashF32Slice blake3 a.residualStream⟩

/-- What operations add to a builder. -/
def CertBuilder.withOps (b : CertBuilder) (ops : List OpRecord) : CertBuilder :=
  { b with ops := b.ops ++ ops, nextOpIndex := b.nextOpIndex + UInt32.ofNat ops.length }

/-- What activations add to a builder. -/
def CertBuilder.withActivations (b : CertBuilder) (acts : List ActivationRecord) : CertBuilder :=
  { b with activations := b.activations ++ acts, nextActIndex := b.nextActIndex + UInt32.ofNat acts.length }

namespace CertBuilder

theorem withOps_nil (b : CertBuilder) : b.withOps [] = b := by
  unfold withOps
  rw [List.append_nil]
  exact congrArg (fun i => { b with nextOpIndex := i }) (UInt32.add_zero _)

theorem withOps_append (b : CertBuilder) (ops ops' : List OpRecord) :
    (b.withOps ops).withOps ops' = b.withOps (ops ++ ops') := by
  unfold withOps
  simp only [List.append_assoc, List.length_append, UInt32.ofNat_add, UInt32.add_assoc]

theorem withActivations_nil (b : CertBuilder) : b.withActivations [] = b := by
  unfold withActivations
  rw [List.append_nil]
  exact congrArg (fun i => { b with nextActIndex := i }) (UInt32.add_zero _)

theorem withActivations_append (b : CertBuilder) (acts acts' : List ActivationRecord) :
    (b.withActivations acts).withActivations acts' = b.withActivations (acts ++ acts') := by
  unfold withActivations
  simp only [List.append_assoc, List.length_append, UInt32.ofNat_add, UInt32.add_assoc]

end CertBuilder

theorem PerOpRecorder.foldl_record (blake3 : Blake3) (ops : List (Operation F)) (rec : PerOpRecorder) :
    ops.foldl (fun rec o => rec.record blake3 o.opName o.layer o.paramsKey o.input o.output) rec =
      ⟨rec.builder.withOps (numberFrom (Operation.record blake3 rec.paramsCache) rec.builder.nextOpIndex ops),
        rec.paramsCache⟩ := by
  induction ops generalizing rec with
  | nil =>
    rw [List.foldl_nil, numberFrom, CertBuilder.withOps_nil]
  | cons o ops ih =>
    have hfirst : rec.record blake3 o.opName o.layer o.paramsKey o.input o.output =
        ⟨rec.builder.withOps [o.record blake3 rec.paramsCache rec.builder.nextOpIndex], rec.paramsCache⟩ := rfl
    rw [List.foldl_cons, ih, hfirst]
    dsimp only
    rw [CertBuilder.withOps_append, numberFrom]
    rfl

theorem PerActivationRecorder.foldl_record (blake3 : Blake3) (acts : List (LensEntry F)) (ar : PerActivationRecorder) :
    acts.foldl (fun ar a => ar.record blake3 a.tokenIndex a.layer a.checkpoint a.residualStream) ar =
      ⟨ar.builder.withActivations (numberFrom (LensEntry.record blake3) ar.builder.nextActIndex acts)⟩ := by
  induction acts generalizing ar with
  | nil =>
    rw [List.foldl_nil, numberFrom, CertBuilder.withActivations_nil]
  | cons a acts ih =>
    have hfirst : ar.record blake3 a.tokenIndex a.layer a.checkpoint a.residualStream =
        ⟨ar.builder.withActivations [a.record blake3 ar.builder.nextActIndex]⟩ := rfl
    rw [List.foldl_cons, ih, hfirst]
    dsimp only
    rw [CertBuilder.withActivations_append, numberFrom]
    rfl

/-! ### The records of a step -/

/-- The record of this operation, on vectors that the step computed. -/
structure OpUse.Recorded (p : Pass F) (use : OpUse F) (r : OpRecord) : Prop where
  opName : r.opName = use.opName
  layer : r.layer = use.layer
  paramsHash : r.paramsHash = use.weight.hash p.blake3
  computed : ∃ input output, use.weight.Applies p input output ∧
    r.inputHash = hashF32Slice p.blake3 input ∧ r.outputHash = hashF32Slice p.blake3 output

/-- The checkpoints of a step that activations are recorded for, in their order. -/
def checkpoints (pos : UInt32) (nLayers : Nat) : List (UInt32 × UInt32 × String) :=
  [(pos, noLayer, "post_embed")] ++
    (List.range nLayers).flatMap (fun layer =>
      [(pos, UInt32.ofNat layer, "post_attn"), (pos, UInt32.ofNat layer, "post_ffn")]) ++
    [(pos, noLayer, "pre_lm_head"), (pos, noLayer, "post_lm_head")]

/-- The records of one step: nine operations for each layer and two for the head, an activation
behind the embedding, two for each layer and two around the head. -/
structure StepCustody (p : Pass F) (ops : List OpRecord) (acts : List ActivationRecord) : Prop where
  length_ops : ops.length = p.cfg.nLayers * 9 + 2
  length_acts : acts.length = p.cfg.nLayers * 2 + 3
  recorded : List.Forall₂ (OpUse.Recorded p) (stepUses p.weights) ops
  checkpoints : acts.map (fun a => (a.tokenIndex, a.layer, a.checkpoint)) = checkpoints p.posU32 p.cfg.nLayers
  /-- `wq`, `wk` and `wv` read what `rms_att` left. -/
  attention : ∀ l < p.cfg.nLayers, ∀ j ∈ [1, 2, 3],
    ops[l * 9 + j]?.map (·.inputHash) = ops[l * 9]?.map (·.outputHash)
  /-- `w1` and `w3` read what `rms_ffn` left. -/
  feedForward : ∀ l < p.cfg.nLayers, ∀ j ∈ [6, 7],
    ops[l * 9 + j]?.map (·.inputHash) = ops[l * 9 + 5]?.map (·.outputHash)
  /-- The head reads what `rms_final` left, where no intervention is made. -/
  head : p.replacement? noLayer "pre_lm_head" p.cfg.dim = none →
    ops[p.cfg.nLayers * 9 + 1]?.map (·.inputHash) = ops[p.cfg.nLayers * 9]?.map (·.outputHash)
  /-- `post_embed` and `post_ffn` are what the next norm reads. -/
  nextNorm : ∀ l ≤ p.cfg.nLayers, acts[l * 2]?.map (·.tensorHash) = ops[l * 9]?.map (·.inputHash)
  postAttn : ∀ l < p.cfg.nLayers, acts[l * 2 + 1]?.map (·.tensorHash) = ops[l * 9 + 5]?.map (·.inputHash)
  preLmHead : acts[p.cfg.nLayers * 2 + 1]?.map (·.tensorHash) = ops[p.cfg.nLayers * 9 + 1]?.map (·.inputHash)

/-! ### Places in the lists -/

namespace StepTrace

variable {p : Pass F} {t : StepTrace F}

private theorem length_blocks {α β : Type} {w : Nat} {f : α → List β} (hf : ∀ x, (f x).length = w) (xs : List α) :
    (xs.flatMap f).length = xs.length * w := by
  induction xs with
  | nil => rw [List.flatMap_nil, List.length_nil, List.length_nil, Nat.zero_mul]
  | cons x xs ih =>
    rw [List.flatMap_cons, List.length_append, hf, ih, List.length_cons, Nat.succ_mul, Nat.add_comm]

omit [F32 F] in
theorem length_layerOps (ts : List (LayerTrace F)) :
    (ts.zipIdx.flatMap fun l => l.1.ops l.2).length = ts.length * 9 := by
  rw [length_blocks (fun l : LayerTrace F × Nat => l.1.length_ops l.2), List.length_zipIdx]

omit [F32 F] in
theorem length_layerActivations (pos : UInt32) (ts : List (LayerTrace F)) :
    (ts.zipIdx.flatMap fun l => l.1.activations pos l.2).length = ts.length * 2 := by
  rw [length_blocks (fun l : LayerTrace F × Nat => l.1.length_activations pos l.2), List.length_zipIdx]

omit [F32 F] in
theorem length_ops (p : Pass F) (t : StepTrace F) : (t.ops p).length = t.layers.length * 9 + 2 := by
  unfold ops
  rw [List.length_append, length_layerOps]
  rfl

omit [F32 F] in
theorem length_activations (p : Pass F) (t : StepTrace F) :
    (t.activations p).length = t.layers.length * 2 + 3 := by
  unfold activations
  rw [List.length_append, List.length_append, length_layerActivations]
  simp only [List.length_cons, List.length_nil]
  omega

omit [F32 F] in
/-- Operation `j` of a layer. -/
theorem ops_layer {l : Nat} {tl : LayerTrace F} (hl : t.layers[l]? = some tl) {j : Nat} (hj : j < 9) :
    (t.ops p)[l * 9 + j]? = (tl.ops l)[j]? := by
  obtain ⟨hlt, -⟩ := List.getElem?_eq_some_iff.mp hl
  have hlength := length_layerOps t.layers
  unfold ops
  rw [List.getElem?_append_left (by omega), getElem?_flatMap (fun l : LayerTrace F × Nat => l.1.length_ops l.2) _ _ hj,
    List.getElem?_zipIdx, hl, Nat.zero_add]
  rfl

omit [F32 F] in
/-- The operations behind the layers. -/
theorem ops_head (p : Pass F) (t : StepTrace F) (j : Nat) : (t.ops p)[t.layers.length * 9 + j]? =
    [(⟨"rms_norm", noLayer, "rms_final", t.x, t.xFinal⟩ : Operation F),
      ⟨"linear_q4_0", noLayer, p.lmHead.2, t.preLmHead, t.logits⟩][j]? := by
  have hlength := length_layerOps t.layers
  unfold ops
  rw [List.getElem?_append_right (by omega), hlength, Nat.add_sub_cancel_left]

omit [F32 F] in
/-- Activation `j` of a layer. -/
theorem activations_layer {l : Nat} {tl : LayerTrace F} (hl : t.layers[l]? = some tl) {j : Nat} (hj : j < 2) :
    (t.activations p)[l * 2 + j + 1]? = (tl.activations p.posU32 l)[j]? := by
  obtain ⟨hlt, -⟩ := List.getElem?_eq_some_iff.mp hl
  have hlength := length_layerActivations p.posU32 t.layers
  unfold activations
  rw [List.append_assoc, List.singleton_append, List.getElem?_cons_succ, List.getElem?_append_left (by omega),
    getElem?_flatMap (fun l : LayerTrace F × Nat => l.1.length_activations p.posU32 l.2) _ _ hj, List.getElem?_zipIdx, hl, Nat.zero_add]
  rfl

omit [F32 F] in
/-- The activations behind the layers. -/
theorem activations_head (p : Pass F) (t : StepTrace F) (j : Nat) :
    (t.activations p)[t.layers.length * 2 + j + 1]? =
      [(⟨p.posU32, noLayer, "pre_lm_head", t.preLmHead⟩ : LensEntry F),
        ⟨p.posU32, noLayer, "post_lm_head", t.postLmHead⟩][j]? := by
  have hlength := length_layerActivations p.posU32 t.layers
  unfold activations
  rw [List.append_assoc, List.singleton_append, List.getElem?_cons_succ, List.getElem?_append_right (by omega),
    hlength, Nat.add_sub_cancel_left]

omit [F32 F] in
/-- What the norms behind the residual checkpoints read. -/
theorem norm_input {l : Nat} (hl : l ≤ t.layers.length) :
    (t.ops p)[l * 9]?.map (·.input) = (t.layers.map (·.x) ++ [t.x])[l]? := by
  by_cases hlast : l = t.layers.length
  · subst hlast
    rw [← Nat.add_zero (t.layers.length * 9), ops_head, List.getElem?_append_right (by rw [List.length_map]),
      List.length_map, Nat.sub_self]
    rfl
  · have hlt : l < t.layers.length := by omega
    have hget := List.getElem?_eq_getElem hlt
    rw [← Nat.add_zero (l * 9), ops_layer hget (by decide),
      List.getElem?_append_left (by rw [List.length_map]; exact hlt), List.getElem?_map, hget]
    rfl

omit [F32 F] in
/-- The residual checkpoints that a norm follows. -/
theorem residual_checkpoint {l : Nat} (hl : l ≤ t.layers.length) :
    (t.activations p)[l * 2]?.map (·.residualStream) = (t.postEmbed :: t.layers.map (·.postFfn))[l]? := by
  cases l with
  | zero => rfl
  | succ l =>
    have hget := List.getElem?_eq_getElem (show l < t.layers.length by omega)
    have hindex : (l + 1) * 2 = l * 2 + 1 + 1 := by omega
    rw [hindex, activations_layer hget (by decide), List.getElem?_cons_succ, List.getElem?_map, hget]
    rfl

end StepTrace

/-! ### Hashes in the records -/

section Hashes

variable {blake3 : Blake3} {cache : BTreeMap Hash}

theorem inputHash_record (i : UInt32) (os : List (Operation F)) (n : Nat) :
    (numberFrom (Operation.record blake3 cache) i os)[n]?.map (·.inputHash) =
      (os[n]?.map (·.input)).map (hashF32Slice blake3) := by
  rw [getElem?_numberFrom, Option.map_map, Option.map_map]
  rfl

theorem outputHash_record (i : UInt32) (os : List (Operation F)) (n : Nat) :
    (numberFrom (Operation.record blake3 cache) i os)[n]?.map (·.outputHash) =
      (os[n]?.map (·.output)).map (hashF32Slice blake3) := by
  rw [getElem?_numberFrom, Option.map_map, Option.map_map]
  rfl

theorem tensorHash_record (i : UInt32) (acts : List (LensEntry F)) (n : Nat) :
    (numberFrom (LensEntry.record blake3) i acts)[n]?.map (·.tensorHash) =
      (acts[n]?.map (·.residualStream)).map (hashF32Slice blake3) := by
  rw [getElem?_numberFrom, Option.map_map, Option.map_map]
  rfl

/-- Where the recorder knows all keys, each operation is recorded with the hash of its weight. -/
theorem recorded_of_told {p : Pass F} {uses : List (OpUse F)} {os : List (Operation F)}
    (h : List.Forall₂ (OpUse.Told p) uses os)
    (known : ∀ use ∈ uses, use.paramsKey.isEmpty = false ∧ cache[use.paramsKey]? = some (use.weight.hash p.blake3))
    (i : UInt32) :
    List.Forall₂ (OpUse.Recorded p) uses (numberFrom (Operation.record p.blake3 cache) i os) := by
  induction h generalizing i with
  | nil => exact .nil
  | @cons use o uses os htold _ ih =>
    obtain ⟨hkey, hhash⟩ := known use List.mem_cons_self
    refine .cons ⟨htold.opName, htold.layer, ?_, o.input, o.output, htold.applies, rfl, rfl⟩ ?_
    · unfold Operation.record
      rw [htold.paramsKey, hkey, hhash]
      rfl
    · exact ih (fun use' h' => known use' (List.mem_cons_of_mem use h')) (i + 1)

end Hashes

omit [F32 F] in
theorem map_activations (p : Pass F) {n : Nat} (t : StepTrace F) (ht : t.layers.length = n) :
    (t.activations p).map (fun a => (a.tokenIndex, a.layer, a.checkpoint)) = checkpoints p.posU32 n := by
  have hlayers : t.layers.zipIdx.map Prod.snd = List.range n := by
    rw [List.zipIdx_map_snd, List.range_eq_range', ht]
  unfold StepTrace.activations checkpoints
  rw [List.map_append, List.map_append, List.map_flatMap, ← hlayers, List.flatMap_map]
  rfl

/-- The records of a step that returned. -/
theorem custody_of_computed {p : Pass F} {t : StepTrace F} (ht : t.Computed p)
    (hlayers : p.weights.layers.length = p.cfg.nLayers) (b : CertBuilder) (i i' : UInt32) :
    StepCustody p
      (numberFrom (Operation.record p.blake3 (PerOpRecorder.new p.blake3 b p.weights).paramsCache) i (t.ops p))
      (numberFrom (LensEntry.record p.blake3) i' (t.activations p)) := by
  have hcount := ht.length
  have hlayer : ∀ l < p.cfg.nLayers, ∃ tl, t.layers[l]? = some tl := fun l hl =>
    ⟨_, List.getElem?_eq_getElem (by omega)⟩
  have hhead := StepTrace.ops_head p t
  have hheadActs := StepTrace.activations_head p t
  rw [hcount] at hhead hheadActs
  constructor
  case length_ops => rw [length_numberFrom, StepTrace.length_ops, hcount]
  case length_acts => rw [length_numberFrom, StepTrace.length_activations, hcount]
  case recorded =>
    have htold := ht.told
    rw [← hlayers, List.take_length] at htold
    exact recorded_of_told htold (fun use huse =>
      ⟨PerOpRecorder.paramsKey_isEmpty huse, PerOpRecorder.paramsCache_eq p.blake3 b huse⟩) i
  case checkpoints =>
    rw [map_numberFrom (h := fun a : LensEntry F => (a.tokenIndex, a.layer, a.checkpoint)) (fun _ _ => rfl)]
    exact map_activations p t hcount
  case attention =>
    intro l hl j hj
    obtain ⟨tl, htl⟩ := hlayer l hl
    have hnorm := StepTrace.ops_layer (p := p) (j := 0) htl (by decide)
    rw [Nat.add_zero] at hnorm
    rw [inputHash_record, outputHash_record, hnorm]
    simp only [List.mem_cons, List.not_mem_nil, or_false] at hj
    rcases hj with rfl | rfl | rfl <;> rw [StepTrace.ops_layer htl (by decide)] <;> rfl
  case feedForward =>
    intro l hl j hj
    obtain ⟨tl, htl⟩ := hlayer l hl
    rw [inputHash_record, outputHash_record, StepTrace.ops_layer (j := 5) htl (by decide)]
    simp only [List.mem_cons, List.not_mem_nil, or_false] at hj
    rcases hj with rfl | rfl <;> rw [StepTrace.ops_layer htl (by decide)] <;> rfl
  case head =>
    intro hplan
    rw [inputHash_record, outputHash_record, hhead 1, ← Nat.add_zero (p.cfg.nLayers * 9), hhead 0]
    exact congrArg (fun x => some (hashF32Slice p.blake3 x)) (ht.kept hplan)
  case nextNorm =>
    intro l hl
    rw [tensorHash_record, inputHash_record, StepTrace.norm_input (by omega), StepTrace.residual_checkpoint (by omega),
      ht.chain]
  case postAttn =>
    intro l hl
    obtain ⟨tl, htl⟩ := hlayer l hl
    have hcheckpoint := StepTrace.activations_layer (p := p) (j := 0) htl (by decide)
    rw [tensorHash_record, inputHash_record, StepTrace.ops_layer htl (by decide), hcheckpoint]
    rfl
  case preLmHead =>
    rw [tensorHash_record, inputHash_record, hhead 1, ← Nat.add_zero (p.cfg.nLayers * 2), hheadActs 0]
    rfl

/-! ### The records of a run -/

section Run

variable {build : Build} {blake3 : Blake3} {cfg : Config} {weights : QuantizedWeights F}
  {plan : Option (InterventionPlan F)} {run : RunState F}

omit [F32 F] in
theorem passOf_fields {pos : Nat} {regime : UInt8} {p : Pass F}
    (h : passOf build blake3 cfg weights plan pos regime = .ok p) :
    p.blake3 = blake3 ∧ p.cfg = cfg ∧ p.weights = weights ∧ p.pos = pos := by
  obtain ⟨kvDim, -, h⟩ := bind_eq_ok.mp h
  obtain ⟨kvMul, -, h⟩ := bind_eq_ok.mp h
  obtain ⟨headSize, -, h⟩ := bind_eq_ok.mp h
  cases h
  exact ⟨rfl, rfl, rfl, rfl⟩

theorem tells_stepWithRecorders {token : UInt32} {pos : Nat}
    {Q : Tensor F → RunState F → List (Event F) → Prop}
    (h : ∀ p (t : StepTrace F) y run', passOf build blake3 cfg weights plan pos run.regime = .ok p →
      t.Computed p → tensorAsF32 y = .ok t.postLmHead → run'.regime = run.regime → Q y run' (t.events p)) :
    Exec.Tells (Observers.see blake3) (stepWithRecorders build blake3 cfg weights plan token pos) run Q := by
  unfold stepWithRecorders
  refine .read (fun _ => rfl) ?_
  refine .step (.lift fun p hp => ?_)
  rw [← (passOf_fields hp).1]
  exact tells_forward fun t y run' ht hy hrun => h p t y run' hp ht hy hrun

/-- The steps of a run with what each of them computed. -/
def Traced (build : Build) (blake3 : Blake3) (cfg : Config) (weights : QuantizedWeights F)
    (plan : Option (InterventionPlan F)) (regime : UInt8) (call : UInt32 × Nat) (pt : Pass F × StepTrace F) : Prop :=
  passOf build blake3 cfg weights plan call.2 regime = .ok pt.1 ∧ pt.2.Computed pt.1

theorem tells_forwardAll {calls : List (UInt32 × Nat)}
    {Q : List (Tensor F) → RunState F → List (Event F) → Prop}
    (h : ∀ pts ys run', List.Forall₂ (Traced build blake3 cfg weights plan run.regime) calls pts →
      Q ys run' (pts.flatMap fun pt => pt.2.events pt.1)) :
    Exec.Tells (Observers.see blake3) (forwardAll (stepWithRecorders build blake3 cfg weights plan) calls) run Q := by
  induction calls generalizing run Q with
  | nil => exact .pure (h [] [] run .nil)
  | cons call calls ih =>
    unfold forwardAll
    refine .step (tells_stepWithRecorders fun p t y run₁ hp ht _ hrun => ?_)
    refine .step (ih fun pts ys run' hpts => ?_)
    rw [hrun] at hpts
    refine .pure ?_
    rw [List.append_nil]
    exact h ((p, t) :: pts) (y :: ys) run' (.cons ⟨hp, ht⟩ hpts)

/-- Whoever watches, a run that returns goes through the states of the run that nobody watches. -/
theorem forwardAll_unobserved {calls : List (UInt32 × Nat)} {w w' : Observers F} {ys : List (Tensor F)}
    {run' : RunState F}
    (h : (forwardAll (stepWithRecorders build blake3 cfg weights plan) calls).eval (run, w) = (.ok ys, (run', w'))) :
    (forwardAll (fun token pos => unobserved (stepWithRecorders build blake3 cfg weights plan token pos)) calls).eval
      run = (.ok ys, run') := by
  induction calls generalizing run w ys with
  | nil =>
    cases h
    rfl
  | cons call calls ih =>
    unfold forwardAll at h ⊢
    obtain ⟨y, ⟨run₁, w₁⟩, hstep, h⟩ := eval_bind_eq_ok.mp h
    obtain ⟨ys', ⟨run₂, w₂⟩, hrest, h⟩ := eval_bind_eq_ok.mp h
    cases h
    have htells := @tells_stepWithRecorders F _ build blake3 cfg weights plan run call.1 call.2 (fun _ _ _ => True)
      fun _ _ _ _ _ _ _ _ => trivial
    obtain ⟨events, -, -, hall⟩ := htells.of_eval_ok hstep
    have hquiet : (unobserved (stepWithRecorders build blake3 cfg weights plan call.1 call.2)).eval run =
        (.ok y, run₁) := by
      have hnone := hall Observers.none
      show (_, _) = _
      rw [hnone]
    rw [eval_bind_ok hquiet, eval_bind_ok (ih hrest)]
    rfl

/-- The records of a run are those of its steps, from any numbers on. -/
theorem custody_of_traced (hlayers : weights.layers.length = cfg.nLayers) (b : CertBuilder) {regime : UInt8}
    {calls : List (UInt32 × Nat)} {pts : List (Pass F × StepTrace F)}
    (h : List.Forall₂ (Traced build blake3 cfg weights plan regime) calls pts) (i i' : UInt32) :
    ∃ steps : List (List OpRecord × List ActivationRecord),
      List.Forall₂ (fun call step => ∃ p, passOf build blake3 cfg weights plan call.2 regime = .ok p ∧
        StepCustody p step.1 step.2) calls steps ∧
      numberFrom (Operation.record blake3 (PerOpRecorder.new blake3 b weights).paramsCache) i
        (pts.flatMap fun pt => pt.2.ops pt.1) = steps.flatMap Prod.fst ∧
      numberFrom (LensEntry.record blake3) i' (pts.flatMap fun pt => pt.2.activations pt.1) =
        steps.flatMap Prod.snd := by
  induction h generalizing i i' with
  | nil => exact ⟨[], .nil, rfl, rfl⟩
  | @cons call pt calls pts hpt _ ih =>
    obtain ⟨p, t⟩ := pt
    obtain ⟨hp, ht⟩ := hpt
    obtain ⟨hblake3, hcfg, hweights, -⟩ := passOf_fields hp
    obtain ⟨steps, hsteps, hops, hacts⟩ := ih (i + UInt32.ofNat (t.ops p).length) (i' + UInt32.ofNat (t.activations p).length)
    have hcustody := custody_of_computed ht (by rw [hweights, hcfg, hlayers]) b i i'
    rw [hblake3, hweights] at hcustody
    refine ⟨(_, _) :: steps, .cons ⟨p, hp, hcustody⟩ hsteps, ?_, ?_⟩
    · rw [List.flatMap_cons, List.flatMap_cons, numberFrom_append, hops]
    · rw [List.flatMap_cons, List.flatMap_cons, numberFrom_append, hacts]
      rfl

omit [F32 F] in
private theorem length_records {α : Type} {n : Nat} {g : List OpRecord × List ActivationRecord → List α}
    {calls : List (UInt32 × Nat)} {steps : List (List OpRecord × List ActivationRecord)}
    {R : UInt32 × Nat → List OpRecord × List ActivationRecord → Prop} (h : List.Forall₂ R calls steps)
    (hn : ∀ call step, R call step → (g step).length = n) :
    (steps.flatMap g).length = calls.length * n := by
  induction h with
  | nil => rw [List.flatMap_nil, List.length_nil, List.length_nil, Nat.zero_mul]
  | cons first _ ih =>
    rw [List.flatMap_cons, List.length_append, hn _ _ first, ih, List.length_cons, Nat.succ_mul, Nat.add_comm]

/-- A run of steps that returned, with a recorder over the weights of the model. -/
theorem perop_chain_of_custody (hlayers : weights.layers.length = cfg.nLayers) (builder : CertBuilder)
    {act : Option PerActivationRecorder} {lens : Option (LensCapture F)} {calls : List (UInt32 × Nat)}
    {ys : List (Tensor F)} {run' : RunState F} {w' : Observers F}
    (hrun : (forwardAll (stepWithRecorders build blake3 cfg weights plan) calls).eval
      (run, ⟨some (PerOpRecorder.new blake3 builder weights), act, lens⟩) = (.ok ys, (run', w'))) :
    ∃ steps : List (List OpRecord × List ActivationRecord),
      List.Forall₂ (fun call step => ∃ p, passOf build blake3 cfg weights plan call.2 run.regime = .ok p ∧
        StepCustody p step.1 step.2) calls steps ∧
      -- operations
      (∃ rec, w'.recorder = some rec ∧ rec.builder = builder.withOps (steps.flatMap Prod.fst)) ∧
      (steps.flatMap Prod.fst).length = calls.length * (cfg.nLayers * 9 + 2) ∧
      (∀ i r, (steps.flatMap Prod.fst)[i]? = some r → r.opIndex = builder.nextOpIndex + UInt32.ofNat i) ∧
      -- activations
      (∀ ar, act = some ar → w'.actRecorder = some ⟨ar.builder.withActivations (steps.flatMap Prod.snd)⟩ ∧
        ∀ i a, (steps.flatMap Prod.snd)[i]? = some a → a.actIndex = ar.builder.nextActIndex + UInt32.ofNat i) ∧
      (steps.flatMap Prod.snd).length = calls.length * (cfg.nLayers * 2 + 3) ∧
      -- the run that nobody watches, which for no plan is one of `step`
      (forwardAll (fun token pos => unobserved (stepWithRecorders build blake3 cfg weights plan token pos)) calls).eval
        run = (.ok ys, run') ∧
      (plan = none → (forwardAll (step build blake3 cfg weights) calls).eval run = (.ok ys, run')) := by
  have htells := @tells_forwardAll F _ build blake3 cfg weights plan run calls
    (fun _ _ events => ∃ pts, List.Forall₂ (Traced build blake3 cfg weights plan run.regime) calls pts ∧
      events = pts.flatMap fun pt => pt.2.events pt.1) fun pts _ _ hpts => ⟨pts, hpts, rfl⟩
  obtain ⟨_, rfl, ⟨pts, hpts, rfl⟩, -⟩ := htells.of_eval_ok hrun
  have hquiet := forwardAll_unobserved hrun
  obtain ⟨steps, hsteps, hops, hacts⟩ := custody_of_traced hlayers builder hpts builder.nextOpIndex
    ((act.map (·.builder.nextActIndex)).getD 0)
  refine ⟨steps, hsteps, ?_, ?_, ?_, ?_, ?_, hquiet, ?_⟩
  · refine ⟨_, Observers.recorder_foldl_see .., ?_⟩
    dsimp only
    rw [PerOpRecorder.foldl_record, List.filterMap_flatMap]
    simp only [StepTrace.ops_events]
    exact congrArg builder.withOps hops
  · refine length_records hsteps fun call step ⟨p, hp, hstep⟩ => ?_
    rw [hstep.length_ops, (passOf_fields hp).2.1]
  · intro i r hr
    rw [← hops, getElem?_numberFrom] at hr
    obtain ⟨o, -, rfl⟩ := Option.map_eq_some_iff.mp hr
    rfl
  · rintro ar rfl
    constructor
    · rw [Observers.actRecorder_foldl_see, Option.map_some, PerActivationRecorder.foldl_record, List.filterMap_flatMap]
      simp only [StepTrace.activations_events]
      exact congrArg (fun acts => some (PerActivationRecorder.mk (ar.builder.withActivations acts))) hacts
    · intro i a ha
      rw [← hacts, getElem?_numberFrom] at ha
      obtain ⟨o, -, rfl⟩ := Option.map_eq_some_iff.mp ha
      rfl
  · refine length_records hsteps fun call step ⟨p, hp, hstep⟩ => ?_
    rw [hstep.length_acts, (passOf_fields hp).2.1]
  · rintro rfl
    exact hquiet

end Run

/-- Two steps of a model with one layer, with both recorders. -/
def watchedSteps : Res (List (Tensor Cost)) × RunState Cost × Observers Cost :=
  (forwardAll (stepWithRecorders .serial noHash twoHeads zeroWeights none) [(0, 0), (1, 1)]).eval
    (⟨List.replicate 4 ⟨7⟩, List.replicate 4 ⟨9⟩, 2⟩,
      ⟨some (PerOpRecorder.new noHash CertBuilder.new zeroWeights), some ⟨CertBuilder.new⟩, none⟩)

theorem perop_chain_of_custody_twoHeads :
    watchedSteps.2.2.recorder.map (·.builder.ops.length) = some 22 ∧
      watchedSteps.2.2.actRecorder.map (·.builder.activations.length) = some 10 := by
  have hok : watchedSteps.1.toBool = true := by decide +kernel
  unfold watchedSteps at hok ⊢
  generalize hend : (forwardAll _ _).eval _ = r at hok ⊢
  obtain ⟨out, run', w'⟩ := r
  cases out with
  | error stop => cases hok
  | ok ys =>
    obtain ⟨steps, -, ⟨rec, hrec, hbuilder⟩, hops, -, hact, hacts, -, -⟩ :=
      perop_chain_of_custody rfl CertBuilder.new hend
    dsimp only
    rw [hrec, (hact _ rfl).1, Option.map_some, Option.map_some, hbuilder]
    exact ⟨congrArg some hops, congrArg some hacts⟩

end VitniTensor
