import VitniTensor.Gpu.MetalReturns
import VitniTensor.Model.Incremental

/-!
# The models that Metal accepts

`new` lets every model through. The step of a model is then that of the engine exactly if the
model has the dtypes, the biases and the sizes that the host takes for granted.
-/

namespace VitniTensor

open Outcome Exec Metal MetalForward

variable {F : Type}

/-- A device that holds the composition of a step: its logits, and its row of each cache. -/
structure Metal.Store.Holds [F32 F] (s : Store F) (p : Pass F) : Prop where
  logits : s.bufs .bLogits 0 = p.logitsValue (p.layersValue 0 p.blocks .embedding).1
  rows : ∀ (i : Nat) kv, (p.layersValue 0 p.blocks .embedding).2[i]? = some kv →
    s.bufs (.keyCache i) (p.pos * p.kvDim * 4) = kv.1 ∧ s.bufs (.valueCache i) (p.pos * p.kvDim * 4) = kv.2

section Commands

variable {p : Pass F} {keys values : List Nat}

theorem Pass.Reached.length_blocks (h : p.Reached) : p.blocks.length = p.cfg.nLayers := by
  have hlayers := h.layers
  unfold Pass.blocks
  rw [List.length_take]
  omega

theorem Pass.Reached.layer_of_blocks (h : p.Reached) : p.blocks = [] ∨ p.LayerReached := by
  rcases Nat.eq_zero_or_pos p.cfg.nLayers with hnone | hsome
  · left
    unfold Pass.blocks
    rw [hnone, List.take_zero]
  · exact .inr (h.layer hsome)

theorem QuantizedWeights.Implemented.lmHead (h : p.weights.Implemented) : p.lmHead.1.dtype.HasKernel := by
  have hhead := h.head
  unfold QuantizedWeights.head at hhead
  unfold Pass.lmHead
  cases hwcls : p.weights.wcls with
  | none =>
    rw [hwcls] at hhead
    exact hhead
  | some t =>
    rw [hwcls] at hhead
    exact hhead

theorem QuantizedWeights.Implemented.blocks (h : p.weights.Implemented) : ∀ blk ∈ p.blocks, HasKernels blk :=
  fun blk hblk => h.layers blk (List.mem_of_mem_take hblk)

/-- Heads that are not empty or no layers. -/
theorem Pass.Reached.heads (h : p.Reached) (hsome : 0 < p.cfg.nLayers) : 0 < p.headSize :=
  (h.layer hsome).heads

variable [F32 F]

/-- The tables that a step gets, unless a head is too large. -/
theorem ropeCache_eq (hp : p.Derived) (hdim : p.cfg.dim < 2 ^ 32) :
    (ofPass p keys values).ropeCache p.pos = .ok ((givenOf p).cos, (givenOf p).sin) :=
  (ofPass p keys values).ropeCache_eq_ok.mpr ⟨by change p.headSize / 2 * 4 < _; have hsize := hp.headSize_lt hdim; omega, rfl⟩

/-- **The composition of the command buffer.** Of a model whose dtypes have kernels a step leaves
the composition of the engine, exactly if its sizes and its biases fit. -/
theorem commands_hold (hp : p.Derived) (hw : p.weights.Implemented) (hreached : p.Reached) :
    (∃ cos sin cmds, (ofPass p keys values).ropeCache p.pos = .ok (cos, sin) ∧
        (ofPass p keys values).commands p.pos = .ok cmds ∧
        ((Store.init ⟨cos, sin, (ofPass p keys values).bAtt⟩).run cmds).Holds p) ↔
      p.FitsDevice ∧ ∀ blk ∈ p.blocks, blk.BiasesFit (p.cfg.nHeads * p.headSize) p.kvDim := by
  have hlayer := hreached.layer_of_blocks
  have hlayers : (ofPass p keys values).layers.take (ofPass p keys values).nLayers = p.blocks.map (copyOf p) :=
    List.map_take.symm
  constructor
  · rintro ⟨cos, sin, cmds, htables, hcmds, hholds⟩
    obtain ⟨hoffset, hencodes⟩ := commands_ok.mp ⟨cmds, hcmds⟩
    obtain ⟨-, -, hcomplete⟩ := encodes_iff.mp hencodes
    obtain ⟨-, hsame⟩ := (ofPass p keys values).ropeCache_eq_ok.mp htables
    cases hsame
    obtain ⟨-, hlogits, -⟩ := (ofPass p keys values).bufs_commands (givenOf p) hcmds
    rw [hlayers] at hlogits
    obtain ⟨hvalue, hdim, hvocab⟩ := (logitsValue_eq hw.lmHead).mp (hlogits.symm.trans hholds.logits)
    obtain ⟨-, hfits⟩ := (layersValue_eq hp hlayer hw.blocks).mp hvalue
    refine ⟨⟨hdim, hvocab, hoffset, fun hsome => ?_⟩, fun blk hblk => ?_⟩
    · have hpos : 0 < p.blocks.length := by rw [hreached.length_blocks]; exact hsome
      exact (hfits _ (List.getElem_mem hpos)).1
    · exact QuantLayer.biasesFit_iff.mpr ⟨hcomplete blk hblk, (hfits blk hblk).2⟩
  · rintro ⟨hdevice, hbiases⟩
    have hfits : ∀ blk ∈ p.blocks, p.LayerFits ∧ SameBiases p blk := by
      intro blk hblk
      have hpos := List.length_pos_of_mem hblk
      rw [hreached.length_blocks] at hpos
      exact ⟨hdevice.layers hpos, (QuantLayer.biasesFit_iff.mp (hbiases blk hblk)).2⟩
    obtain ⟨cmds, hcmds⟩ := (@commands_ok F (ofPass p keys values) p.pos).mpr ⟨hdevice.offset, encodes_iff.mpr
      ⟨hreached.layers, hreached.heads, fun blk hblk => (QuantLayer.biasesFit_iff.mp (hbiases blk hblk)).1⟩⟩
    obtain ⟨-, hlogits, hrows⟩ := (ofPass p keys values).bufs_commands (givenOf p) hcmds
    have hrowsEq := @layersRows_eq F p keys values .embedding _ hp p.blocks hlayer hw.blocks hfits 0
    have hvalue := (@layersValue_eq F p keys values .embedding .embedding _ hp p.blocks hlayer hw.blocks 0).mpr
      ⟨rfl, hfits⟩
    rw [hlayers] at hlogits hrows
    refine ⟨_, _, cmds, ropeCache_eq hp hdevice.dim, hcmds, ?_, fun i kv hkv => ?_⟩
    · exact hlogits.trans ((logitsValue_eq hw.lmHead).mpr ⟨hvalue, hdevice.dim, hdevice.vocab⟩)
    · exact hrows i kv (by rw [← hkv, ← hrowsEq]; rfl)

end Commands

/-! ### Every accepted model -/

section Accepted

variable [F32 F] (build : Build) (blake3 : Blake3)

/-- What a step leaves on the device. -/
def MetalForward.left (mf : MetalForward F) (sub : Submission F) : Store F :=
  (Store.init ⟨sub.cos, sub.sin, mf.bAtt⟩).run sub.commands

/-- What the backend is to do with a model that `new` accepted, in a step at `pos` under `regime`. -/
structure MetalForward.ComputesStep (cfg : Config) (w : QuantizedWeights F) (mf : MetalForward F) (pos : Nat)
    (regime : UInt8) : Prop where
  /-- Any other model was to be rejected. -/
  implemented : w.Implemented
  /-- The same operations on the same weights: what the host hands over leaves the engine's composition. -/
  composition : ∀ p, passOf build blake3 cfg w none pos regime = .ok p → p.Reached →
    ∀ (token : UInt32) (row : List F), embeddingRow w.tokenEmbeddingTable token.toNat cfg.dim = .ok row →
    ∃ sub, (mf.setRegime regime).step token pos = .ok sub ∧ sub.row = row ∧ ((mf.setRegime regime).left sub).Holds p
  /-- No panic where the engine returns. -/
  returns : ∀ (token : UInt32) (s : RunState F) (logits : Tensor F), s.regime = regime →
    ((VitniTensor.step build blake3 cfg w token pos).eval s).1 = .ok logits →
    ∃ sub, (mf.setRegime regime).step token pos = .ok sub
  /-- The compositions on the device evaluate to the engine's logits and cache rows. -/
  numbers : ∀ p, passOf build blake3 cfg w none pos regime = .ok p →
    ∀ (token : UInt32) (s : RunState F) (logits : Tensor F), s.Fits p → s.regime = regime →
    ((VitniTensor.step build blake3 cfg w token pos).eval s).1 = .ok logits →
    ∃ sub log, (mf.setRegime regime).step token pos = .ok sub ∧ log.length = cfg.nLayers ∧ (∀ kv ∈ log, kv.IsRow p) ∧
      ((VitniTensor.step build blake3 cfg w token pos).eval s).2 = s.writeRows p 0 log ∧
      (∃ ys, (((mf.setRegime regime).left sub).bufs .bLogits 0).eval p s token = .ok ys ∧
        vectorTensor ys cfg.vocabSize = .ok logits) ∧
      ∀ (i : Nat) (kv : KeyValue F), log[i]? = some kv →
        (((mf.setRegime regime).left sub).bufs (.keyCache i) (pos * p.kvDim * 4)).eval p s token = .ok kv.1 ∧
        (((mf.setRegime regime).left sub).bufs (.valueCache i) (pos * p.kvDim * 4)).eval p s token = .ok kv.2

variable {build blake3} {cfg : Config} {w : QuantizedWeights F} {pos : Nat} {regime : UInt8} {p : Pass F}

/-- A step that returned is a forward pass that returned. -/
theorem step_forward (hpass : passOf build blake3 cfg w none pos regime = .ok p) {token : UInt32}
    {s : RunState F} (hregime : s.regime = regime) {logits : Tensor F}
    (h : ((VitniTensor.step build blake3 cfg w token pos).eval s).1 = .ok logits) :
    (p.forward token).eval (s, Observers.none) = (.ok logits, ((p.forward token).eval (s, Observers.none)).2) ∧
      ((VitniTensor.step build blake3 cfg w token pos).eval s).2 = ((p.forward token).eval (s, Observers.none)).2.1 := by
  rw [step_eval, hregime, hpass] at h ⊢
  exact ⟨Prod.ext h rfl, rfl⟩

/-- The pairs of a key lie in its row, where no pair goes across heads. -/
theorem kTurns_inside (hp : p.Derived) (hwidth : p.cfg.dim = p.cfg.nHeads * p.headSize)
    (heven : p.weights.ropeNeox = false → p.headSize % 2 = 0) :
    ∀ t ∈ p.kTurns, t.first < p.kvDim ∧ t.second < p.kvDim := by
  intro t ht
  unfold Pass.kTurns at ht
  cases hneox : p.weights.ropeNeox with
  | true =>
    rw [if_pos hneox] at ht
    obtain ⟨h, hh, ht⟩ := List.mem_flatMap.mp ht
    obtain ⟨j, hj, rfl⟩ := List.mem_map.mp ht
    have hhead := Nat.mul_le_mul_right p.headSize (List.mem_range.mp hh)
    have hfit := Nat.div_mul_le_self p.kvDim p.headSize
    have hhalf := List.mem_range.mp hj
    rw [Nat.succ_mul] at hhead
    exact ⟨by change h * p.headSize + j < _; omega, by change h * p.headSize + j + p.headSize / 2 < _; omega⟩
  | false =>
    rw [if_neg (by rw [hneox]; decide)] at ht
    obtain ⟨m, hm, rfl⟩ := List.mem_map.mp ht
    have hbegin : 2 * m < p.kvDim := by simpa using (List.mem_filter.mp hm).2
    -- whole heads of an even size
    have hwhole : p.kvDim % 2 = 0 := by
      rw [hp.kvDim_eq hwidth, Nat.mul_mod, heven hneox, Nat.mul_zero, Nat.zero_mod]
    exact ⟨hbegin, by change 2 * m + 1 < _; omega⟩

/-- **Metal steps.** `new` accepts a model whatever its dtypes are. The step of an accepted model
is that of the engine exactly if every dtype has a kernel and, where the engine finds a token in the
embedding and gets through its layers, the sizes fit the kernels and every layer has all of its
biases or none. -/
theorem metal_computes_step {mf : MetalForward F} (hnew : MetalForward.new cfg w = .ok mf) (pos : Nat)
    (regime : UInt8) :
    ∃ p, passOf build blake3 cfg w none pos regime = .ok p ∧
      (mf.ComputesStep build blake3 cfg w pos regime ↔ w.Implemented ∧
        ((∃ (token : UInt32) (row : List F), embeddingRow w.tokenEmbeddingTable token.toNat cfg.dim = .ok row) →
          p.Reached → p.FitsDevice ∧
            ∀ blk ∈ p.blocks, blk.BiasesFit (p.cfg.nHeads * p.headSize) p.kvDim)) := by
  obtain ⟨p, keys, values, hpass, hp, rfl, rfl, rfl, hcopy⟩ := new_eq hnew build blake3 pos regime
  have hplan := (passOf_derived hpass).2.2.2.1
  refine ⟨p, hpass, fun h => ⟨h.implemented, fun ⟨token, row, hrow⟩ hreached => ?_⟩, fun ⟨hw, hfits⟩ => ?_⟩
  · obtain ⟨sub, hsub, -, hholds⟩ := h.composition p hpass hreached token row hrow
    rw [hcopy] at hsub hholds
    obtain ⟨htables, -, hcmds⟩ := step_ok.mp hsub
    exact (commands_hold hp h.implemented hreached).mp ⟨_, _, _, htables, hcmds, hholds⟩
  · have hstep : p.Reached → ∀ (token : UInt32) (row : List F),
        embeddingRow p.weights.tokenEmbeddingTable token.toNat p.cfg.dim = .ok row →
        ∃ sub, (mf.setRegime regime).step token p.pos = .ok sub ∧ sub.row = row ∧
          ((mf.setRegime regime).left sub).Holds p := by
      intro hreached token row hrow
      obtain ⟨cos, sin, cmds, htables, hcmds, hholds⟩ :=
        (@commands_hold F p keys values _ hp hw hreached).mpr (hfits ⟨token, row, hrow⟩ hreached)
      rw [hcopy]
      exact ⟨⟨cos, sin, row, cmds⟩, step_ok.mpr ⟨htables, embedRow_ok hrow, hcmds⟩, rfl, hholds⟩
    refine ⟨hw, fun p' hpass' => ?_, fun token s logits hregime hout => ?_,
      fun p' hpass' token s logits hs hregime hout => ?_⟩
    · rw [hpass] at hpass'
      cases hpass'
      exact hstep
    · obtain ⟨hforward, -⟩ := step_forward hpass hregime hout
      obtain ⟨hreached, ⟨row, hrow⟩, -⟩ := forward_reached hp hplan hforward
      obtain ⟨sub, hsub, -⟩ := hstep hreached token row hrow
      exact ⟨sub, hsub⟩
    · rw [hpass] at hpass'
      cases hpass'
      obtain ⟨hforward, hleft⟩ := step_forward hpass hregime hout
      obtain ⟨hreached, ⟨row, hrow⟩, hcontext⟩ := forward_reached hp hplan hforward
      obtain ⟨sub, hsub, -, hholds⟩ := hstep hreached token row hrow
      have hfit := (hfits ⟨token, row, hrow⟩ hreached).1
      have hturns := fun hsome => kTurns_inside hp (hfit.layers hsome).width (hfit.layers hsome).even
      obtain ⟨log, hlength, hlog, hwrote, hvalue, hrows⟩ := forward_value hp hplan hturns (hcontext hs) hs hforward
      refine ⟨sub, log, hsub, hlength, hlog, by rw [hleft, hwrote], ?_, fun i kv hkv => ?_⟩
      · rw [hholds.logits]
        exact hvalue
      · obtain ⟨hi, hget⟩ := List.getElem?_eq_some_iff.mp hkv
        have hi' : i < (p.layersValue 0 p.blocks .embedding).2.length := by rw [hrows.length_eq]; exact hi
        obtain ⟨hkey, hval⟩ := hholds.rows i _ (List.getElem?_eq_getElem hi')
        have hboth := hrows.get hi' hi
        rw [hkey, hval, ← hget]
        exact hboth

end Accepted

/-! ### A bias without the others -/

/-- One layer of one head, all widths 32. -/
def oneHead : Config :=
  ⟨32, 32, 1, 1, 1, 1, 1, true⟩

/-- Rows of one Q8_0 block. -/
def zeroRows (n : Nat) : QuantTensor :=
  ⟨[32, UInt64.ofNat n], .q8_0, List.replicate (n * 34) 0, true⟩

def oneHeadWeights (bq : Option (List Cost)) : QuantizedWeights Cost where
  tokenEmbeddingTable := zeroRows 1
  layers := [⟨List.replicate 32 ⟨0⟩, zeroRows 32, zeroRows 32, zeroRows 32, zeroRows 32,
    List.replicate 32 ⟨0⟩, zeroRows 32, zeroRows 32, zeroRows 32, bq, none, none⟩]
  rmsFinalWeight := List.replicate 32 ⟨0⟩
  wcls := none
  ropeTheta := ⟨0⟩
  rmsEps := ⟨0⟩
  ropeNeox := false

theorem oneHead_implemented (bq : Option (List Cost)) : (oneHeadWeights bq).Implemented := by
  have hrows : ∀ n, (zeroRows n).dtype.HasKernel := fun _ => .inr (.inr (.inl rfl))
  refine ⟨fun blk hblk t ht => ?_, hrows 1, .inl (hrows 1)⟩
  rw [List.mem_singleton.mp hblk] at ht
  simp only [QuantLayer.matrices, List.mem_cons, List.not_mem_nil, or_false, or_self] at ht
  rw [ht]
  exact hrows 32

private theorem zeroRows_holds {n : Nat} (hn : n < 100) : (zeroRows n).Holds 32 n := by
  have hlength : (zeroRows n).bytes.length = n * 34 := List.length_replicate
  refine ⟨⟨⟨32, 34, rfl, rfl, hlength⟩, by omega, ?_, by omega⟩, ?_⟩
  · exact fun hdtype => nomatch hdtype
  · exact fun hdtype => nomatch hdtype

theorem oneHead_sized (bq : Option (List Cost)) : (oneHeadWeights bq).Sized oneHead 32 := by
  have hmatrix : (zeroRows 32).Holds 32 32 := zeroRows_holds (by decide)
  have htable : (zeroRows 1).Holds 32 1 := zeroRows_holds (by decide)
  refine ⟨rfl, fun blk hmem => ?_, rfl, htable.toOfSize, fun _ => htable, fun t h => nomatch h⟩
  rw [List.mem_singleton.mp hmem]
  exact ⟨rfl, rfl, hmatrix, hmatrix, hmatrix, hmatrix, hmatrix, hmatrix, hmatrix⟩

theorem metal_computes_unbiased :
    ∃ mf, MetalForward.new oneHead (oneHeadWeights none) = .ok mf ∧
      mf.ComputesStep .serial noHash oneHead (oneHeadWeights none) 0 2 := by
  obtain ⟨p, hpass, hiff⟩ := @metal_computes_step Cost _ .serial noHash oneHead (oneHeadWeights none) _ rfl 0 2
  refine ⟨_, rfl, hiff.mpr ⟨oneHead_implemented none, fun _ _ => ?_⟩⟩
  cases hpass
  refine ⟨⟨by decide, by decide, by decide, fun _ => ?_⟩, fun blk hblk => ?_⟩
  · exact ⟨by decide, by decide, by decide, by decide, rfl, fun _ => rfl⟩
  · rw [List.mem_singleton.mp hblk]
    exact .inl ⟨rfl, rfl, rfl⟩

/-- The engine adds the one bias that is there, the backend unwraps one that is not. -/
theorem metal_missing_bias :
    ∃ mf, MetalForward.new oneHead (oneHeadWeights (some (List.replicate 32 ⟨0⟩))) = .ok mf ∧
      (∃ logits, ((VitniTensor.step .serial noHash oneHead (oneHeadWeights (some (List.replicate 32 ⟨0⟩))) 0 0).eval
        ⟨List.replicate 32 ⟨0⟩, List.replicate 32 ⟨0⟩, 2⟩).1 = .ok logits) ∧
      (mf.setRegime 2).step 0 0 = panic .explicit ∧
      ¬mf.ComputesStep .serial noHash oneHead (oneHeadWeights (some (List.replicate 32 ⟨0⟩))) 0 2 := by
  have hcfg : oneHead.Grouped 32 1 := ⟨rfl, rfl, rfl⟩
  have hpanic : ∀ mf, MetalForward.new oneHead (oneHeadWeights (some (List.replicate 32 ⟨0⟩))) = .ok mf →
      (mf.setRegime 2).step 0 0 = panic .explicit := by
    intro mf hnew
    cases hnew
    rfl
  have hout := @step_first_ok Cost _ .serial noHash oneHead (oneHeadWeights (some (List.replicate 32 ⟨0⟩))) 32 1 2 _
    hcfg (oneHead_sized _) rfl (by decide) (by decide) ⟨List.replicate 32 ⟨0⟩, List.replicate 32 ⟨0⟩, 2⟩
    ⟨rfl, rfl⟩ rfl 0 _ rfl
  refine ⟨_, rfl, hout, hpanic _ rfl, fun hcomputes => ?_⟩
  obtain ⟨logits, hout⟩ := hout
  obtain ⟨sub, hstep⟩ := hcomputes.returns 0 _ logits rfl hout
  rw [hpanic _ rfl] at hstep
  cases hstep

end VitniTensor
