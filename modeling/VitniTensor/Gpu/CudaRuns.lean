import VitniTensor.Gpu.CudaBounds

/-!
# Runs on the CUDA host

What a run launches: the steps up to the first one that stops, and of that one the launches before the
stop. From it, exactly when every subscript stays inside, for any sizes that the host may pass; and what
that comes to for sizes that are not negative as `int`s.
-/

namespace VitniTensor

open Outcome Subscript Gpu Exec

variable {F : Type}

namespace Cuda

namespace VtCuda

variable (h : VtCuda F)

/-- The first cell of row `pos`. -/
def rowOff (pos : UInt32) : Nat :=
  pos.toNat * sizeT h.cfg.kvDim % 2 ^ 64

/-- Row `pos` is in the cache. -/
def RowFits (pos : UInt32) : Prop :=
  0 < rows h.cfg.kvDim → h.rowOff pos + rows h.cfg.kvDim ≤ h.kvCells

/-- So are the heads of it that are rotated. -/
def KeysFit (pos : UInt32) : Prop :=
  ∀ g < rows (h.cfg.kvDim.tdiv h.cfg.headSize), SpanFits h.kvCells (h.rowOff pos)
    (g * (unsigned h.cfg.headSize).toNat) (2 * ((unsigned h.cfg.headSize).toNat / 2))

/-- There is room for the scores of the positions up to `pos`, and what the heads read of their rows is in the
cache. -/
def HeadsFit (pos : UInt32) : Prop :=
  0 < rows h.cfg.nHeads → unsigned h.cfg.kvMul ≠ 0 ∧ (pos + 1).toNat ≤ 4096 ∧
    ∀ t < (pos + 1).toNat, ∀ g < rows h.cfg.nHeads, SpanFits h.kvCells 0
      (t * (unsigned h.cfg.kvDim).toNat + g / (unsigned h.cfg.kvMul).toNat * (unsigned h.cfg.headSize).toNat)
      (unsigned h.cfg.headSize).toNat

/-- The matrices of a layer that are read before the heads are counted. -/
structure ProjectionsFit (l : VtLayer F) : Prop where
  wq : l.wq.Fits h.regime h.qOut h.cfg.dim
  wk : l.wk.Fits h.regime h.cfg.kvDim h.cfg.dim
  wv : l.wv.Fits h.regime h.cfg.kvDim h.cfg.dim

/-- The others. -/
structure RestFits (l : VtLayer F) : Prop where
  wo : l.wo.Fits h.regime h.cfg.dim h.cfg.dim
  w1 : l.w1.Fits h.regime h.cfg.hidden h.cfg.dim
  w3 : l.w3.Fits h.regime h.cfg.hidden h.cfg.dim
  w2 : l.w2.Fits h.regime h.cfg.dim h.cfg.hidden

/-- A step gets through the layers. -/
def Completes : Prop :=
  h.cfg.nLayers.toNat ≤ h.layers.length ∧ (0 < h.cfg.nLayers.toNat → h.cfg.headSize ≠ 0)

/-- The layers that a step enters; empty heads end it in the first. -/
def entered : List (VtLayer F) :=
  (h.layers.take h.cfg.nLayers.toNat).take (if h.cfg.headSize = 0 then 1 else h.cfg.nLayers.toNat)

/-- The sizes of a step at `pos` do not exceed the storage of the kernels. -/
structure StepFits (pos : UInt32) : Prop where
  projections : ∀ l ∈ h.entered, h.ProjectionsFit l
  row : h.entered ≠ [] → h.RowFits pos
  keys : h.cfg.headSize ≠ 0 → h.entered ≠ [] → h.KeysFit pos
  heads : h.cfg.headSize ≠ 0 → h.entered ≠ [] → h.HeadsFit pos
  rest : h.cfg.headSize ≠ 0 → ∀ l ∈ h.entered, h.RestFits l
  head : h.Completes → h.wcls.Fits h.regime h.cfg.vocab h.cfg.dim

variable {h}

theorem mem_entered {l : VtLayer F} : l ∈ h.entered ↔
    ∃ i < h.cfg.nLayers.toNat, h.layers[i]? = some l ∧ (i = 0 ∨ h.cfg.headSize ≠ 0) := by
  unfold entered
  rw [List.take_take, List.mem_iff_getElem?]
  refine exists_congr fun i => ?_
  rw [List.getElem?_take]
  -- Without a head size, the step divides by zero in its first layer.
  split
  next hzero =>
    split
    next hi => exact ⟨fun hget => ⟨by omega, hget, .inl (by omega)⟩, fun hget => hget.2.1⟩
    next hi => exact iff_of_false (fun hget => nomatch hget) fun hget => by have := hget.2.2; omega
  next hsome =>
    rw [Nat.min_self]
    split
    next hi => exact ⟨fun hget => ⟨hi, hget, .inr hsome⟩, fun hget => hget.2.1⟩
    next hi => exact iff_of_false (fun hget => nomatch hget) fun hget => hi hget.1

/-! ### The launches of a layer -/

theorem projectionLaunches_inside {pos : UInt32} {layer : Nat} {l : VtLayer F} :
    (∀ launch ∈ h.projectionLaunches pos layer l, launch.subscripts h.kvCells = .ok ()) ↔
      h.ProjectionsFit l ∧ h.RowFits pos := by
  -- Norms read no cache.
  have hnorm : ∀ (grid block : Nat) (x out : Ptr) (ws : List F) (feat rows : UInt32) (eps : F),
      (⟨grid, block, .rms x ws out feat rows eps⟩ : Launch F).subscripts h.kvCells = .ok () :=
    fun _ _ _ _ _ _ _ _ => rfl
  -- Nor does the query's buffer; key and value rows lie in theirs.
  have hq : ∀ n, Within h.kvCells (Buf.q : Ptr) n := fun n => within_scratch (by rintro ⟨_, h | h⟩ <;> cases h)
  have hkey : Within h.kvCells (h.rowPtr (.keyc layer) pos) (rows h.cfg.kvDim) ↔ h.RowFits pos :=
    within_cached ⟨layer, .inl rfl⟩
  have hvalue : Within h.kvCells (h.rowPtr (.valc layer) pos) (rows h.cfg.kvDim) ↔ h.RowFits pos :=
    within_cached ⟨layer, .inr rfl⟩
  unfold projectionLaunches
  simp only [List.forall_mem_append, List.forall_mem_cons, hnorm, lin_inside, hq, hkey, hvalue, true_and, and_true]
  constructor
  · rintro ⟨⟨⟨⟨⟨hwq, hwk, hrow⟩, hwv, -⟩, -⟩, -⟩, -⟩
    exact ⟨⟨hwq, hwk, hwv⟩, hrow⟩
  · rintro ⟨⟨hwq, hwk, hwv⟩, hrow⟩
    exact ⟨⟨⟨⟨⟨hwq, hwk, hrow⟩, hwv, hrow⟩, addBias_inside (hq _)⟩, addBias_inside (hkey.mpr hrow)⟩,
      addBias_inside (hvalue.mpr hrow)⟩

/-- The launches behind the division. -/
def restLaunches (h : VtCuda F) (pos : UInt32) (layer : Nat) (l : VtLayer F) : List (Launch F) :=
  h.attentionLaunches pos layer l (h.cfg.kvDim.tdiv h.cfg.headSize) ++ h.feedForwardLaunches l

theorem restLaunches_inside {pos : UInt32} {layer : Nat} {l : VtLayer F} :
    (∀ launch ∈ h.restLaunches pos layer l, launch.subscripts h.kvCells = .ok ()) ↔
      h.KeysFit pos ∧ h.HeadsFit pos ∧ h.RestFits l := by
  have hnorm : ∀ (grid block : Nat) (x out : Ptr) (ws : List F) (feat rows : UInt32) (eps : F),
      (⟨grid, block, .rms x ws out feat rows eps⟩ : Launch F).subscripts h.kvCells = .ok () :=
    fun _ _ _ _ _ _ _ _ => rfl
  have hsilu : ∀ (grid block : Nat) (gate up out : Ptr) (n : UInt32),
      (⟨grid, block, .siluMul gate up out n⟩ : Launch F).subscripts h.kvCells = .ok () := fun _ _ _ _ _ _ => rfl
  -- The scratch buffers are no caches, so they bound nothing.
  have hscratch : ∀ buf, buf = Buf.x ∨ buf = Buf.q ∨ buf = Buf.gate ∨ buf = Buf.up → ¬(buf : Ptr).Cached := by
    rintro buf (rfl | rfl | rfl | rfl) ⟨layer, h | h⟩ <;> cases h
  have hx := fun n => @within_scratch h.kvCells _ n (hscratch .x (.inl rfl))
  have hgate := fun n => @within_scratch h.kvCells _ n (hscratch .gate (.inr (.inr (.inl rfl))))
  have hup := fun n => @within_scratch h.kvCells _ n (hscratch .up (.inr (.inr (.inr rfl))))
  have hkey : (h.rowPtr (.keyc layer) pos).Cached := ⟨layer, .inl rfl⟩
  unfold restLaunches attentionLaunches feedForwardLaunches
  simp only [List.forall_mem_append, List.forall_mem_cons, List.not_mem_nil, false_imp_iff, implies_true, hnorm, hsilu,
    lin_inside, rope_scratch (hscratch .q (.inr (.inl rfl))), rope_cached hkey, attention_inside, hx, hgate, hup,
    true_and, and_true]
  constructor
  · rintro ⟨⟨⟨hkeys, hheads⟩, hwo⟩, ⟨hw1, hw3⟩, hw2⟩
    exact ⟨hkeys, hheads, hwo, hw1, hw3, hw2⟩
  · rintro ⟨hkeys, hheads, hwo, hw1, hw3, hw2⟩
    exact ⟨⟨⟨hkeys, hheads⟩, hwo⟩, ⟨hw1, hw3⟩, hw2⟩

theorem headLaunches_inside :
    (∀ launch ∈ h.headLaunches, launch.subscripts h.kvCells = .ok ()) ↔
      h.wcls.Fits h.regime h.cfg.vocab h.cfg.dim := by
  have hnorm : ∀ (ws : List F) (feat : UInt32) (eps : F),
      (⟨1, 64, .rms Buf.x ws Buf.xb feat 1 eps⟩ : Launch F).subscripts h.kvCells = .ok () := fun _ _ _ => rfl
  unfold headLaunches
  rw [List.forall_mem_cons, lin_inside]
  simp only [hnorm, true_and]
  exact and_iff_left (within_scratch (by rintro ⟨_, h | h⟩ <;> cases h))

/-! ### The launches of a step -/

variable (h) in
/-- How a layer ends. -/
def layerEnd (layer : Nat) : Res Unit :=
  match h.layers[layer]? with
  | some _ => if h.cfg.headSize = 0 then panic .divideByZero else .ok ()
  | none => panic .outOfRange

variable (h) in
/-- What a layer launches. -/
def layerOut (pos : UInt32) (layer : Nat) : List (Launch F) :=
  match h.layers[layer]? with
  | some l => if h.cfg.headSize = 0 then h.projectionLaunches pos layer l
    else h.projectionLaunches pos layer l ++ h.restLaunches pos layer l
  | none => []

theorem layerStep_emits (pos : UInt32) (layer : Nat) :
    Emits (h.layerStep pos layer) (h.layerEnd layer) (h.layerOut pos layer) := by
  unfold layerStep
  cases hget : h.layers[layer]? with
  -- No such layer: the lookup panics before any launch.
  | none =>
    have hmissing : (index h.layers layer : Res (VtLayer F)) = panic .outOfRange := by simp [index, hget]
    have hend : h.layerEnd layer = panic .outOfRange := by simp [layerEnd, hget]
    have hout : h.layerOut pos layer = [] := by simp [layerOut, hget]
    rw [hmissing, hend, hout]
    exact (Emits.of_lift (panic .outOfRange)).stop
  | some l =>
    rw [index_eq_ok.mpr hget]
    -- The grouping `kv_dim / head_size` is computed behind the projections, and divides by
    -- zero.
    by_cases hzero : h.cfg.headSize = 0
    · have hdiv : divInt h.cfg.kvDim h.cfg.headSize = panic .divideByZero := if_pos hzero
      have hend : h.layerEnd layer = panic .divideByZero := by simp [layerEnd, hget, hzero]
      have hout : h.layerOut pos layer = [] ++ (h.projectionLaunches pos layer l ++ []) := by
        simp [layerOut, hget, hzero]
      rw [hdiv, hend, hout]
      refine (Emits.of_lift (.ok l)).bind (Emits.bind (b := ()) (Emits.of_emit _) ?_)
      exact (Emits.of_lift (panic .divideByZero)).stop
    -- All launches of the layer go out.
    · have hdiv : divInt h.cfg.kvDim h.cfg.headSize = .ok (h.cfg.kvDim.tdiv h.cfg.headSize) := if_neg hzero
      have hend : h.layerEnd layer = .ok () := by simp [layerEnd, hget, hzero]
      have hout : h.layerOut pos layer =
          [] ++ (h.projectionLaunches pos layer l ++ ([] ++ h.restLaunches pos layer l)) := by
        simp [layerOut, hget, hzero]
      rw [hdiv, hend, hout]
      refine (Emits.of_lift (.ok l)).bind (Emits.bind (b := ()) (Emits.of_emit _) ?_)
      exact (Emits.of_lift _).bind (Emits.of_emit _)

theorem layerEnd_ok {layer : Nat} :
    h.layerEnd layer = .ok () ↔ layer < h.layers.length ∧ h.cfg.headSize ≠ 0 := by
  unfold layerEnd
  by_cases hlayer : layer < h.layers.length
  · rw [List.getElem?_eq_getElem hlayer]
    by_cases hzero : h.cfg.headSize = 0 <;> simp [hlayer, hzero]
  · rw [List.getElem?_eq_none (Nat.not_lt.mp hlayer)]
    simp [hlayer]

theorem mem_layerOut {pos : UInt32} {layer : Nat} {launch : Launch F} :
    launch ∈ h.layerOut pos layer ↔ ∃ l, h.layers[layer]? = some l ∧ (launch ∈ h.projectionLaunches pos layer l ∨
      h.cfg.headSize ≠ 0 ∧ launch ∈ h.restLaunches pos layer l) := by
  unfold layerOut
  cases h.layers[layer]? with
  | none => simp
  | some l => by_cases hzero : h.cfg.headSize = 0 <;> simp [hzero]

/-- What a step launches, and when it gets through. -/
theorem vtCudaStep_emits (pos : UInt32) : ∃ y all, Emits (h.vtCudaStep pos) y all ∧ (y = .ok () ↔ h.Completes) ∧
    ∀ launch, launch ∈ all ↔
      (∃ i < h.cfg.nLayers.toNat, (∀ j < i, h.layerEnd j = .ok ()) ∧ launch ∈ h.layerOut pos i) ∨
        h.Completes ∧ launch ∈ h.headLaunches := by
  -- The loop over the layers, as one emission: it ends at the first layer that stops.
  obtain ⟨y, all, hall, hok, hmem⟩ := @Emits.loop _ _ 0 h.cfg.nLayers.toNat (fun layer => h.layerStep pos layer)
    h.layerEnd (h.layerOut pos) fun layer _ _ => layerStep_emits pos layer
  -- All layers are passed when none is missing and, if there is one, the heads have a size.
  have hcompletes : y = .ok () ↔ h.Completes := by
    rw [hok]
    simp only [layerEnd_ok, Nat.zero_le, true_imp_iff, Nat.zero_add]
    constructor
    · intro hlayers
      refine ⟨?_, fun hsome => (hlayers 0 hsome).2⟩
      by_contra hmissing
      exact absurd (hlayers h.layers.length (by omega)).1 (Nat.lt_irrefl _)
    · exact fun hc i hi => ⟨Nat.lt_of_lt_of_le hi hc.1, hc.2 (Nat.zero_lt_of_lt hi)⟩
  simp only [Nat.zero_le, true_and, true_imp_iff, Nat.zero_add] at hmem
  unfold vtCudaStep forRange
  -- Then come the launches of the head; otherwise the step ends where the loop did.
  cases y with
  | ok u =>
    refine ⟨.ok (), all ++ h.headLaunches, hall.bind (Emits.of_emit _), hcompletes, fun launch => ?_⟩
    rw [List.mem_append, hmem, and_iff_right (hcompletes.mp rfl)]
  | error s =>
    refine ⟨.error s, all, hall.stop, hcompletes, fun launch => ?_⟩
    rw [hmem, or_iff_left fun hc => nomatch hcompletes.mpr hc.1]

variable (h) in
/-- The launches of a step. -/
def launched (pos : UInt32) : List (Launch F) :=
  ((h.vtCudaStep pos).eval []).2

theorem vtCudaStep_launched (pos : UInt32) :
    ∃ y, Emits (h.vtCudaStep pos) y (h.launched pos) ∧ (y = .ok () ↔ h.Completes) := by
  obtain ⟨y, all, hall, hcompletes, -⟩ := @vtCudaStep_emits F h pos
  have hlaunched : h.launched pos = all := congrArg Prod.snd hall.eval_nil
  exact ⟨y, hlaunched ▸ hall, hcompletes⟩

theorem mem_launched {pos : UInt32} {launch : Launch F} : launch ∈ h.launched pos ↔
    (∃ i < h.cfg.nLayers.toNat, (∀ j < i, h.layerEnd j = .ok ()) ∧ launch ∈ h.layerOut pos i) ∨
      h.Completes ∧ launch ∈ h.headLaunches := by
  obtain ⟨y, all, hall, -, hmem⟩ := @vtCudaStep_emits F h pos
  have hlaunched : h.launched pos = all := congrArg Prod.snd hall.eval_nil
  rw [hlaunched, hmem]

/-- The layers before one that is there have ended, if their heads are not empty. -/
theorem layers_before {i : Nat} {l : VtLayer F} (hl : h.layers[i]? = some l) :
    (∀ j < i, h.layerEnd j = .ok ()) ↔ i = 0 ∨ h.cfg.headSize ≠ 0 := by
  have hi := (List.getElem?_eq_some_iff.mp hl).1
  simp only [layerEnd_ok]
  constructor
  · intro hbefore
    rcases Nat.eq_zero_or_pos i with hzero | hsome
    · exact .inl hzero
    · exact .inr (hbefore 0 hsome).2
  · rintro (rfl | hheads) j hj
    · exact absurd hj (Nat.not_lt_zero j)
    · exact ⟨Nat.lt_trans hj hi, hheads⟩

/-- The layers of a step stay inside exactly if their sizes fit. -/
theorem layers_inside {pos : UInt32} :
    (∀ launch i, i < h.cfg.nLayers.toNat → (∀ j < i, h.layerEnd j = .ok ()) → launch ∈ h.layerOut pos i →
      launch.subscripts h.kvCells = .ok ()) ↔
    ∀ l ∈ h.entered, (h.ProjectionsFit l ∧ h.RowFits pos) ∧
      (h.cfg.headSize ≠ 0 → h.KeysFit pos ∧ h.HeadsFit pos ∧ h.RestFits l) := by
  constructor
  · intro hinside l hl
    -- Only entered layers launch anything.
    obtain ⟨i, hi, hget, hreached⟩ := mem_entered.mp hl
    have hlayer := fun launch => hinside launch i hi ((layers_before hget).mpr hreached)
    refine ⟨(@projectionLaunches_inside F h pos i l).mp fun launch hmem => ?_,
      fun hheads => (@restLaunches_inside F h pos i l).mp fun launch hmem => ?_⟩
    · exact hlayer launch (mem_layerOut.mpr ⟨l, hget, .inl hmem⟩)
    · exact hlayer launch (mem_layerOut.mpr ⟨l, hget, .inr ⟨hheads, hmem⟩⟩)
  · intro hfits launch i hi hbefore hmem
    obtain ⟨l, hget, hmem⟩ := mem_layerOut.mp hmem
    obtain ⟨hfirst, hrest⟩ := hfits l (mem_entered.mpr ⟨i, hi, hget, (layers_before hget).mp hbefore⟩)
    rcases hmem with hmem | ⟨hheads, hmem⟩
    · exact projectionLaunches_inside.mpr hfirst launch hmem
    · exact restLaunches_inside.mpr (hrest hheads) launch hmem

/-- A step stays inside exactly if its sizes fit. -/
theorem launched_inside {pos : UInt32} :
    (∀ launch ∈ h.launched pos, launch.subscripts h.kvCells = .ok ()) ↔ h.StepFits pos := by
  -- The launches of the layers and, if those complete, of the head.
  have hparts : (∀ launch ∈ h.launched pos, launch.subscripts h.kvCells = .ok ()) ↔
      (∀ launch i, i < h.cfg.nLayers.toNat → (∀ j < i, h.layerEnd j = .ok ()) → launch ∈ h.layerOut pos i →
        launch.subscripts h.kvCells = .ok ()) ∧
      (h.Completes → ∀ launch ∈ h.headLaunches, launch.subscripts h.kvCells = .ok ()) := by
    constructor
    · exact fun hall => ⟨fun launch i hi hbefore hmem => hall launch (mem_launched.mpr (.inl ⟨i, hi, hbefore, hmem⟩)),
        fun hc launch hmem => hall launch (mem_launched.mpr (.inr ⟨hc, hmem⟩))⟩
    · rintro ⟨hlayers, hhead⟩ launch hmem
      rcases mem_launched.mp hmem with ⟨i, hi, hbefore, hmem⟩ | ⟨hc, hmem⟩
      · exact hlayers launch i hi hbefore hmem
      · exact hhead hc launch hmem
  rw [hparts, layers_inside, headLaunches_inside]
  constructor
  · rintro ⟨hlayers, hhead⟩
    -- An entered layer's fits give those the fields ask for once.
    have hfirst : h.entered ≠ [] → ∃ l, l ∈ h.entered := List.exists_mem_of_ne_nil _
    exact {
      projections := fun l hl => (hlayers l hl).1.1
      row := fun hsome => (hfirst hsome).elim fun l hl => (hlayers l hl).1.2
      keys := fun hheads hsome => (hfirst hsome).elim fun l hl => ((hlayers l hl).2 hheads).1
      heads := fun hheads hsome => (hfirst hsome).elim fun l hl => ((hlayers l hl).2 hheads).2.1
      rest := fun hheads l hl => ((hlayers l hl).2 hheads).2.2
      head := hhead }
  · intro hfits
    refine ⟨fun l hl => ?_, hfits.head⟩
    have hsome := List.ne_nil_of_mem hl
    exact ⟨⟨hfits.projections l hl, hfits.row hsome⟩,
      fun hheads => ⟨hfits.keys hheads hsome, hfits.heads hheads hsome, hfits.rest hheads l hl⟩⟩

end VtCuda

end Cuda

/-! ### A run -/

namespace CudaForward

open Cuda

variable [F32 F] (cf : CudaForward F)

/-- The number of tokens that the host looks up before the first one that it has no row for. -/
def looked (tokens : List UInt32) : Nat :=
  (tokens.takeWhile fun token => (cf.embedRow token.toNat).isOk).length

/-- A run launches something at a position: the logits can be allocated, the token is looked up, and the step
before gets through the layers. -/
structure Begins (tokens : List UInt32) (pos : Nat) : Prop where
  logits : cf.vocab * 4 < 2 ^ 63
  looked : pos < cf.looked tokens
  completes : 0 < pos → cf.h.Completes

/-- No launch of a run that is fed these tokens has a subscript outside of its array or of the cache. -/
def StaysInside (tokens : List UInt32) : Prop :=
  ∀ launch ∈ ((feed cf.step tokens).eval []).2, launch.subscripts cf.h.kvCells = .ok ()

variable {cf}

theorem expect_ok {α : Type} {x : Outcome CudaError α} : (∃ a, expect x = .ok a) ↔ x.isOk = true := by
  rw [isOk_iff]
  unfold expect
  cases x with
  | ok a => exact iff_of_true ⟨a, rfl⟩ ⟨a, rfl⟩
  | error s => cases s <;> exact iff_of_false (fun ⟨_, h⟩ => nomatch h) (fun ⟨_, h⟩ => nomatch h)

variable (cf) in
/-- The host gets to the device. -/
def Prepares (token : UInt32) : Prop :=
  cf.vocab * 4 < 2 ^ 63 ∧ (cf.embedRow token.toNat).isOk = true

/-- A step that gets to the device launches what the handle does, and any other launches nothing. -/
theorem step_emits (hcos : cf.cos.length = cf.headSize / 2) (hsin : cf.sin.length = cf.headSize / 2) (token : UInt32)
    (pos : Nat) : ∃ y out, Emits (cf.step token pos) y out ∧
      (y = .ok () ↔ cf.Prepares token ∧ cf.h.Completes) ∧
      ∀ launch, launch ∈ out ↔ cf.Prepares token ∧ launch ∈ cf.h.launched (UInt32.ofNat pos) := by
  unfold step Prepares
  rw [ropeTables_eq hcos hsin]
  -- No row for the token: the step ends before its first launch.
  cases hrow : expect (cf.embedRow token.toNat) with
  | error s =>
    have hlook : ¬(cf.embedRow token.toNat).isOk = true := fun hok => by
      obtain ⟨row, hrow'⟩ := expect_ok.mpr hok
      cases hrow.symm.trans hrow'
    refine ⟨.error s, [] ++ [], (Emits.of_lift _).bind (Emits.of_lift _).stop, ?_, fun launch => ?_⟩
    · exact iff_of_false (fun h => nomatch h) (fun h => hlook h.1.2)
    · exact iff_of_false List.not_mem_nil (fun h => hlook h.1.2)
  | ok row =>
    have hlook := expect_ok.mp ⟨row, hrow⟩
    rw [hlook]
    -- A row, and room for the logits: the device's step runs.
    by_cases hmemory : cf.vocab * 4 < 2 ^ 63
    · obtain ⟨y, hstep, hcompletes⟩ := @Cuda.VtCuda.vtCudaStep_launched F cf.h (UInt32.ofNat pos)
      rw [zeroVec_of_lt hmemory, hcompletes.symm.eq]
      refine ⟨y, [] ++ ([] ++ ([] ++ cf.h.launched (UInt32.ofNat pos))), ?_, ?_, fun launch => ?_⟩
      · exact (Emits.of_lift _).bind ((Emits.of_lift _).bind ((Emits.of_lift _).bind hstep))
      · exact (and_iff_right ⟨hmemory, rfl⟩).symm
      · exact (and_iff_right ⟨hmemory, rfl⟩).symm
    -- No room for the logits: the allocation panics, still before any launch.
    · rw [zeroVec_of_ge (Nat.not_lt.mp hmemory)]
      refine ⟨panic .capacityOverflow, [] ++ ([] ++ []), ?_, ?_, fun launch => ?_⟩
      · exact (Emits.of_lift _).bind ((Emits.of_lift _).bind (Emits.of_lift _).stop)
      · exact iff_of_false (fun h => nomatch h) (fun h => hmemory h.1.1)
      · exact iff_of_false List.not_mem_nil (fun h => hmemory h.1.1)

/-- The launches of a run are those of the steps that begin. -/
theorem mem_run (hcos : cf.cos.length = cf.headSize / 2) (hsin : cf.sin.length = cf.headSize / 2)
    {tokens : List UInt32} {launch : Launch F} : launch ∈ ((feed cf.step tokens).eval []).2 ↔
      ∃ pos, cf.Begins tokens pos ∧ launch ∈ cf.h.launched (UInt32.ofNat pos) := by
  have hstep : ∀ token pos, Emits (cf.step token pos) ((cf.step token pos).eval []).1 ((cf.step token pos).eval []).2 ∧
      (((cf.step token pos).eval []).1 = .ok () ↔ cf.Prepares token ∧ cf.h.Completes) ∧
      (launch ∈ ((cf.step token pos).eval []).2 ↔ cf.Prepares token ∧ launch ∈ cf.h.launched (UInt32.ofNat pos)) := by
    intro token pos
    obtain ⟨y, out, hemits, hok, hmem⟩ := step_emits hcos hsin token pos
    rw [hemits.eval_nil]
    exact ⟨hemits, hok, hmem launch⟩
  -- A launch belongs to a position whose predecessors all completed.
  rw [mem_feed fun token pos => (hstep token pos).1]
  simp only [(hstep _ _).2.1, (hstep _ _).2.2]
  constructor
  · rintro ⟨pos, token, htoken, hbefore, hprepares, hmem⟩
    -- Earlier tokens were looked up; if there was one, the layers completed.
    refine ⟨pos, ⟨hprepares.1, lt_takeWhile.mpr ⟨(List.getElem?_eq_some_iff.mp htoken).1, fun j hj earlier hearlier => ?_⟩,
      fun hsome => ?_⟩, hmem⟩
    · rcases Nat.eq_or_lt_of_le hj with rfl | hj
      · cases htoken.symm.trans hearlier
        exact hprepares.2
      · exact (hbefore j hj earlier hearlier).1.2
    · have hlength := Nat.lt_trans hsome (List.getElem?_eq_some_iff.mp htoken).1
      exact (hbefore 0 hsome _ (List.getElem?_eq_getElem hlength)).2
  -- Conversely every earlier position begins, too, and completes.
  · rintro ⟨pos, ⟨hlogits, hlooked, hcompletes⟩, hmem⟩
    obtain ⟨hlength, hrows⟩ := lt_takeWhile.mp hlooked
    have htoken := List.getElem?_eq_getElem hlength
    refine ⟨pos, _, htoken, fun j hj earlier hearlier => ?_, ⟨hlogits, hrows pos (Nat.le_refl pos) _ htoken⟩, hmem⟩
    exact ⟨⟨hlogits, hrows j (Nat.le_of_lt hj) earlier hearlier⟩, hcompletes (Nat.zero_lt_of_lt hj)⟩

/-- A run stays inside exactly if the sizes of every step that begins fit. -/
theorem staysInside_iff (hcos : cf.cos.length = cf.headSize / 2) (hsin : cf.sin.length = cf.headSize / 2)
    (tokens : List UInt32) :
    cf.StaysInside tokens ↔ ∀ pos, cf.Begins tokens pos → cf.h.StepFits (UInt32.ofNat pos) := by
  unfold StaysInside
  simp only [mem_run hcos hsin, ← Cuda.VtCuda.launched_inside]
  exact ⟨fun h pos hbegins launch hmem => h launch ⟨pos, hbegins, hmem⟩,
    fun h launch ⟨pos, hbegins, hmem⟩ => h pos hbegins launch hmem⟩

end CudaForward

end VitniTensor
