import VitniTensor.Model.HeadChecks

/-!
# The checks of a step

What a step of the quantized forward pass depends on, for weights of any dtypes and sizes: one list of checks for each
token and position, in the order of the code.
-/

namespace VitniTensor

open Outcome Check Exec

variable {F : Type} [F32 F]

/-! ### Weights as they are in a file -/

/-- A layer for each of the configuration, and matrices in memory. -/
structure QuantizedWeights.Stored (w : QuantizedWeights F) (cfg : Config) : Prop where
  layers : w.layers.length = cfg.nLayers
  table : w.tokenEmbeddingTable.bytes.length < 2 ^ 63
  head : ∀ t, w.wcls = some t → t.bytes.length < 2 ^ 63
  each : ∀ blk ∈ w.layers, ∀ t ∈ blk.matrices, t.bytes.length < 2 ^ 63

namespace Pass

variable (p : Pass F)

/-! ### The checks -/

/-- A norm tests its weights, and divides by the width. -/
def normChecks (ws : List F) (dim : Nat) : List Check :=
  [.test (ws.length = dim), .trust (0 < dim)]

def projectChecks (blk : QuantLayer F) : List Check :=
  normChecks blk.rmsAttWeight p.cfg.dim ++
    (linearChecks p.build blk.wq p.cfg.dim (p.cfg.nHeads * p.headSize) p.regime ++
      (linearChecks p.build blk.wk p.cfg.dim p.kvDim p.regime ++ linearChecks p.build blk.wv p.cfg.dim p.kvDim p.regime))

def afterHeadsChecks (blk : QuantLayer F) : List Check :=
  linearChecks p.build blk.wo p.cfg.dim p.cfg.dim p.regime ++
    (normChecks blk.rmsFfnWeight p.cfg.dim ++
      (linearChecks p.build blk.w1 p.cfg.dim p.cfg.hiddenDim p.regime ++
        (linearChecks p.build blk.w3 p.cfg.dim p.cfg.hiddenDim p.regime ++
          linearChecks p.build blk.w2 p.cfg.hiddenDim p.cfg.dim p.regime)))

def layerChecks (layer : Nat) : List Check :=
  match p.weights.layers[layer]? with
  | none => []
  | some blk => p.projectChecks blk ++ (.trust (p.HeadsFit layer) :: p.afterHeadsChecks blk)

def logitsChecks : List Check :=
  normChecks p.weights.rmsFinalWeight p.cfg.dim ++ linearChecks p.build p.lmHead.1 p.cfg.dim p.cfg.vocabSize p.regime

/-- The checks of a step on a token. -/
def stepChecks (token : UInt32) : List Check :=
  lookupChecks p.weights.tokenEmbeddingTable token.toNat p.cfg.dim ++
    ((List.range' 0 p.cfg.nLayers).flatMap p.layerChecks ++ p.logitsChecks)

/-! ### The parts of a step -/

variable {p}

omit [F32 F] in
theorem checked_of_quiet {α : Type} {cs : List Check} {U : α → Prop} {m : Step F α} {x : Res α} (hm : Quiet m x)
    (hx : x.Checked cs U) : Exec.Checked p.Ready cs (fun a s => U a ∧ p.Ready s) m := by
  rintro ⟨run, obs⟩ hready
  obtain rfl : obs = Observers.none := hready.observers
  rw [hm.eval run]
  exact hx.mono fun _ ha => ⟨ha, hready⟩

omit [F32 F] in
theorem checked_vectorTensor {xs : List F} {n : Nat} (hxs : xs.length = n) (hn : n * 4 < 2 ^ 63) :
    Outcome.Checked [] (·.IsVector n) (vectorTensor xs n) := by
  obtain ⟨x, hx, hvec⟩ := vectorTensor_ok hxs (lt_wordSize hn)
  exact .of_ok hx hvec

theorem checked_add {x y : Tensor F} {n : Nat} (hx : x.IsVector n) (hy : y.IsVector n) :
    Outcome.Checked [] (·.IsVector n) (x.add y) := by
  obtain ⟨z, hz, hvec⟩ := hx.add_ok hy
  exact .of_ok hz hvec

theorem checked_normalized {x : Tensor F} {n : Nat} (hx : x.IsVector n) (ws : List F) :
    Outcome.Checked (normChecks ws n) (fun xb => xb.length = n ∧ 0 < n) (Causal.normalized p x ws) := by
  obtain ⟨xs, hstorage, hlength⟩ := hx.data
  have hform : Causal.normalized p x ws = (if ws.length ≠ n then
      err (.shapeMismatch "weight length == last dim of x" "weight mismatch")
    else do
      let rows ← div xs.length n
      let out ← rmsRows xs ws p.weights.rmsEps n rows
      Tensor.fromF32 out x.shape) >>= tensorAsF32 := by
    unfold Causal.normalized rmsNormSlice
    rw [if_neg (not_not_intro hx.dtype), Tensor.isContiguous_eq, ok_bind]
    simp only [Bool.not_true, Bool.false_eq_true, if_false, hx.dims, List.isEmpty_cons, List.getLastD_cons,
      List.getLastD_nil, hstorage]
  by_cases hws : ws.length = n
  · refine (checked_cons (decide_eq_true hws)).mpr (.single (fun hn => ?_) fun hn => ⟨.panic .divideByZero, ?_, ?_⟩)
    · obtain ⟨xb, hxb, hcount⟩ := normalized_ok p hn hx hws
      exact ⟨xb, hxb, hcount, hn⟩
    · rw [hform, if_neg (not_not_intro hws), div, if_pos (Nat.eq_zero_of_not_pos hn)]
      rfl
    · simp [Handled]
  · rw [hform, if_pos hws]
    exact checked_fails (decide_eq_false hws) (iff_of_true rfl trivial)

theorem checked_projected (hp : p.Derived) {blk : QuantLayer F} (hmemory : p.cfg.dim * 4 < 2 ^ 63)
    (hblk : ∀ t ∈ blk.matrices, t.bytes.length < 2 ^ 63) {x : Tensor F} (hx : x.IsVector p.cfg.dim) :
    Outcome.Checked (p.projectChecks blk) (fun r => r.1.length = p.cfg.nHeads * p.headSize ∧ r.2.1.length = p.kvDim ∧
      r.2.2.length = p.kvDim ∧ 0 < p.cfg.dim) (projected p blk x) := by
  have hq := hblk blk.wq (by simp [QuantLayer.matrices])
  have hk := hblk blk.wk (by simp [QuantLayer.matrices])
  have hv := hblk blk.wv (by simp [QuantLayer.matrices])
  have hwidth := hp.qOut_le
  have hout : attnQOutDim p.cfg = .ok (p.cfg.nHeads * p.headSize) := by
    unfold attnQOutDim Config.headSize
    rw [div_of_pos hp.heads, ok_bind, ← hp.headSize, word_of_lt (by unfold wordSize; omega)]
  unfold projected projectChecks
  refine (checked_normalized hx blk.rmsAttWeight).bind fun xb hxb => ?_
  rw [hout, ok_bind]
  refine (checked_linear p.build hq hmemory hxb.1 p.regime).bind fun q hqlen => ?_
  refine (checked_linear p.build hk hmemory hxb.1 p.regime).bind fun k hklen => ?_
  refine (checked_linear p.build hv hmemory hxb.1 p.regime).before fun v hvlen => ?_
  exact checked_ok ⟨(length_addBias ..).trans hqlen.1, (length_addBias ..).trans hklen.1, (length_addBias ..).trans hvlen.1, hxb.2⟩

theorem checked_afterHeads {blk : QuantLayer F} (hmemory : p.cfg.dim * 4 < 2 ^ 63)
    (hblk : ∀ t ∈ blk.matrices, t.bytes.length < 2 ^ 63) {x : Tensor F} (hx : x.IsVector p.cfg.dim) {heads : List F}
    (hheads : heads.length = p.cfg.dim) :
    Outcome.Checked (p.afterHeadsChecks blk) (·.IsVector p.cfg.dim) (afterHeads p blk x heads) := by
  have ho := hblk blk.wo (by simp [QuantLayer.matrices])
  have h1 := hblk blk.w1 (by simp [QuantLayer.matrices])
  have h2 := hblk blk.w2 (by simp [QuantLayer.matrices])
  have h3 := hblk blk.w3 (by simp [QuantLayer.matrices])
  unfold afterHeads afterHeadsChecks
  refine (checked_linear p.build ho hmemory hheads p.regime).bind fun out hout => ?_
  refine (checked_vectorTensor hout.1 hmemory).after fun outT houtT => ?_
  refine (checked_add hx houtT).after fun mid hmid => ?_
  refine (checked_normalized hmid blk.rmsFfnWeight).bind fun xb hxb => ?_
  refine (checked_linear p.build h1 hmemory hxb.1 p.regime).bind fun gate hgate => ?_
  refine (checked_linear p.build h3 hmemory hxb.1 p.regime).bind fun up hup => ?_
  obtain ⟨inner, hinner, hilen⟩ := swiGlu_ok hgate.1 hup.1
  rw [hinner, ok_bind]
  refine (checked_linear p.build h2 hgate.2 hilen p.regime).before fun down hdown => ?_
  refine (checked_vectorTensor hdown.1 hmemory).after fun downT hdownT => ?_
  exact checked_add hmid hdownT

theorem checked_logits (hmemory : p.cfg.dim * 4 < 2 ^ 63) (hw : p.weights.Stored p.cfg) {x : Tensor F}
    (hx : x.IsVector p.cfg.dim) : Outcome.Checked p.logitsChecks (·.IsVector p.cfg.vocabSize) (Causal.logits p x) := by
  have hhead : p.lmHead.1.bytes.length < 2 ^ 63 := by
    unfold lmHead
    cases hwcls : p.weights.wcls with
    | none => exact hw.table
    | some t => exact hw.head t hwcls
  unfold Causal.logits logitsChecks
  refine (checked_normalized hx p.weights.rmsFinalWeight).bind fun xb hxb => ?_
  refine (checked_linear p.build hhead hmemory hxb.1 p.regime).before fun y hy => ?_
  exact checked_vectorTensor hy.1 hy.2

theorem checked_embed (hw : p.weights.Stored p.cfg) (token : UInt32) :
    Outcome.Checked (lookupChecks p.weights.tokenEmbeddingTable token.toNat p.cfg.dim)
      (fun x => x.IsVector p.cfg.dim ∧ p.cfg.dim * 4 < 2 ^ 63) (Causal.embed p token) := by
  unfold Causal.embed
  refine (checked_lookup (F := F) hw.table).before fun row hrow => ?_
  exact (checked_vectorTensor hrow.1 hrow.2).mono fun x hx => ⟨hx, hrow.2⟩

omit [F32 F] in
theorem checked_cacheRow {layer : Nat} (hlayer : layer < p.cfg.nLayers) (hpos : p.pos < p.cfg.seqLen) {k v : List F}
    (hk : k.length = p.kvDim) (hv : v.length = p.kvDim) :
    Exec.Checked p.Ready [] (fun _ s => p.Ready s) (p.cacheRow layer k v) := by
  rintro ⟨run, obs⟩ ⟨hobs, hkeys, hvalues, hregime⟩
  have hrow := row_fits hlayer hpos
  have hcopy : ∀ {cache row : List F}, cache.length = p.cells → row.length = p.kvDim →
      ∃ cache', (copyInto cache (p.rowOff layer p.pos) (p.rowOff layer p.pos + p.kvDim) row : Res (List F)) = .ok cache' ∧
        cache'.length = p.cells := by
    intro cache row hcache hlength
    rw [copyInto_of_le (Nat.le_add_right _ _) (by omega) (by omega)]
    refine ⟨_, rfl, ?_⟩
    simp only [List.length_append, List.length_take, List.length_drop]
    omega
  obtain ⟨keys, hkeysEq, hkeysLen⟩ := hcopy hkeys hk
  obtain ⟨values, hvaluesEq, hvaluesLen⟩ := hcopy hvalues hv
  have heval : (p.cacheRow layer k v).eval (run, obs) =
      (.ok (), ({ run with keyCache := keys, valueCache := values }, obs)) := by
    dsimp only at hkeysEq hvaluesEq
    simp [cacheRow, eval_bind, hkeysEq, hvaluesEq]
  rw [heval]
  exact checked_ok ⟨hobs, hkeysLen, hvaluesLen, hregime⟩

/-! ### A step -/

theorem layerStep_heads (layer : Nat) (x : Tensor F) : p.layerStep layer x = (do
    let blk ← lift (index p.weights.layers layer)
    let qkv ← p.project layer blk x
    p.cacheRow layer qkv.2.1 qkv.2.2
    let out ← p.heads layer qkv.1
    p.attnOutput layer blk x out >>= p.feedForward layer blk) := by
  unfold layerStep heads
  simp only [bind_assoc]

theorem checked_layerStep (hp : p.Derived) (hplan : p.plan = none) (hw : p.weights.Stored p.cfg)
    (hmemory : p.cfg.dim * 4 < 2 ^ 63) (hpos : p.pos < p.cfg.seqLen) {layer : Nat} (hlayer : layer < p.cfg.nLayers)
    {x : Tensor F} (hx : x.IsVector p.cfg.dim) :
    Exec.Checked p.Ready (p.layerChecks layer) (fun x s => x.IsVector p.cfg.dim ∧ p.Ready s) (p.layerStep layer x) := by
  have hlt : layer < p.weights.layers.length := by rw [hw.layers]; exact hlayer
  have hblk := hw.each _ (List.getElem_mem hlt)
  rw [layerStep_heads, layerChecks, List.getElem?_eq_getElem hlt, index_of_lt hlt, lift_ok, pure_bind]
  dsimp only
  refine (checked_of_quiet (quiet_project ..) (checked_projected hp hmemory hblk hx)).bind fun qkv => .given fun hqkv => ?_
  obtain ⟨hq, hk, hv, hdim⟩ := hqkv
  refine (checked_cacheRow hlayer hpos hk hv).after fun _ => ?_
  refine (checked_heads hp hlayer hpos hdim hmemory hq).bind fun out => .given fun hout => ?_
  exact checked_of_quiet (quiet_afterHeads hplan ..) (checked_afterHeads hmemory hblk hx hout)

theorem checked_forward (hp : p.Derived) (hplan : p.plan = none) (hw : p.weights.Stored p.cfg)
    (hpos : p.pos < p.cfg.seqLen) (token : UInt32) :
    Exec.Checked p.Ready (p.stepChecks token) (fun z s => z.IsVector p.cfg.vocabSize ∧ p.Ready s) (p.forward token) := by
  unfold forward stepChecks
  refine (checked_of_quiet (quiet_embed hplan token) (checked_embed hw token)).bind fun x => .given fun hx => ?_
  obtain ⟨hx, hmemory⟩ := hx
  have hbody : ∀ i y, 0 ≤ i → i < 0 + p.cfg.nLayers →
      Exec.Checked (fun s => y.IsVector p.cfg.dim ∧ p.Ready s) (p.layerChecks i)
        (fun z s => z.IsVector p.cfg.dim ∧ p.Ready s) (p.layerStep i y) :=
    fun i y _ hi => .given fun hy => checked_layerStep hp hplan hw hmemory hpos (by omega) hy
  have hloop := Exec.Checked.loop (fun _ (y : Tensor F) s => y.IsVector p.cfg.dim ∧ p.Ready s) hbody x
  refine (hloop.weaken fun s hs => ⟨hx, hs⟩).bind fun y => .given fun hy => ?_
  exact checked_of_quiet (quiet_logits hplan y) (checked_logits hmemory hw hy)

end Pass

end VitniTensor
