import VitniTensor.Gpu.MetalAgrees
import VitniTensor.Gpu.MetalEncodes
import VitniTensor.Model.Products

/-!
# When a Metal step returns

The host encodes the command buffer of a step exactly if no optional bias is unwrapped in vain,
and looks every embedding up that the engine looks up.
-/

namespace VitniTensor

open Outcome Exec Rows

variable {F : Type}

namespace MetalForward

open Metal

variable {p : Pass F} {keys values : List Nat}

/-! ### The command buffer -/

/-- The host gets through the layers of its copy. -/
theorem encodes_iff :
    (ofPass p keys values).Encodes ↔ p.cfg.nLayers ≤ p.weights.layers.length ∧
      (0 < p.cfg.nLayers → 0 < p.headSize) ∧ ∀ blk ∈ p.blocks, blk.BiasesComplete := by
  have hlength : (ofPass p keys values).layers.length = p.weights.layers.length := List.length_map _
  have hlayers : (ofPass p keys values).layers.take (ofPass p keys values).nLayers = p.blocks.map (copyOf p) :=
    List.map_take.symm
  constructor
  · rintro ⟨hcount, hheads, hbiases⟩
    rw [hlength] at hcount
    rw [hlayers] at hbiases
    exact ⟨hcount, hheads, fun blk hblk => hbiases _ (List.mem_map_of_mem hblk)⟩
  · rintro ⟨hcount, hheads, hbiases⟩
    refine ⟨by rw [hlength]; exact hcount, hheads, ?_⟩
    rw [hlayers, List.forall_mem_map]
    exact hbiases

/-! ### The embedding row -/

/-- A table of blocks. -/
theorem embedBlocks_ok {per size : Nat} {ragged past : String} {dequant : List UInt8 → Res (List F)}
    {table : List UInt8} {token dim : Nat} {row : List F}
    (h : embeddingBlocks per size ragged past dequant table token dim = .ok row) :
    embedBlocks (dim / per * size) dequant table token = .ok row := by
  unfold embeddingBlocks at h
  split at h
  next => cases h
  next =>
    obtain ⟨start, hstart, h⟩ := bind_eq_ok.mp h
    obtain ⟨rowStart, hrowStart, h⟩ := bind_eq_ok.mp h
    obtain ⟨width, hwidth, h⟩ := bind_eq_ok.mp h
    obtain ⟨rowEnd, hrowEnd, h⟩ := bind_eq_ok.mp h
    obtain ⟨-, rfl⟩ := word_eq_ok.mp hstart
    obtain ⟨-, rfl⟩ := word_eq_ok.mp hrowStart
    obtain ⟨-, rfl⟩ := word_eq_ok.mp hwidth
    obtain ⟨-, rfl⟩ := word_eq_ok.mp hrowEnd
    split at h
    next => cases h
    next =>
      obtain ⟨bytes, hbytes, h⟩ := bind_eq_ok.mp h
      unfold embedBlocks
      rw [Nat.succ_mul, ← Nat.mul_assoc, hbytes, ok_bind, h]
      rfl

variable [F32 F]

theorem f32At_ok {bytes : List UInt8} {i : Nat} (hi : i < (blocksOf 4 bytes).length) :
    f32At bytes (i * 4) = .ok ((f32Le (blocksOf 4 bytes)[i] : F)) := by
  have hbyte : ∀ (j : Nat) (hj : j < 4), (index bytes (i * 4 + j) : Res UInt8) = .ok (blocksOf 4 bytes)[i][j] := by
    intro j hj
    rw [index_eq_ok, getElem_blocksOf hi hj]
  have h0 := hbyte 0 (by decide)
  rw [Nat.add_zero] at h0
  unfold f32At
  rw [h0, ok_bind, hbyte 1 (by decide), ok_bind, hbyte 2 (by decide), ok_bind, hbyte 3 (by decide), ok_bind]
  rfl

/-- A table of floats. -/
theorem embedFloats_ok {bytes : List UInt8} {token dim : Nat} {row : List F}
    (h : (slice ((blocksOf 4 bytes).map f32Le) (token * dim) ((token + 1) * dim) : Res (List F)) = .ok row) :
    collectRange dim (fun i => f32At bytes (token * dim * 4 + i * 4)) = .ok row := by
  obtain ⟨⟨-, hend⟩, hrow⟩ := slice_eq_ok.mp h
  rw [List.length_map, Nat.succ_mul] at hend
  rw [Nat.succ_mul, Nat.add_sub_cancel_left] at hrow
  have hcells : ∀ i, 0 ≤ i → i < 0 + dim → (f32At bytes (token * dim * 4 + i * 4) : Res F) =
      .ok (((blocksOf 4 bytes).map f32Le).getD (token * dim + i) F32.zero) := by
    intro i _ hi
    have hin : token * dim + i < (blocksOf 4 bytes).length := by omega
    rw [← Nat.add_mul, f32At_ok hin, List.getD_eq_getElem?_getD, List.getElem?_map,
      List.getElem?_eq_getElem hin]
    rfl
  rw [collectRange, collectFrom_eq hcells, ← hrow]
  congr 1
  refine List.ext_getElem? fun i => ?_
  rw [List.getElem?_map, List.getElem?_take, List.getElem?_drop]
  by_cases hi : i < dim
  · have hin : token * dim + i < ((blocksOf 4 bytes).map f32Le : List F).length := by
      rw [List.length_map]
      omega
    rw [if_pos hi, List.getElem?_range' hi, Option.map_some, Nat.zero_add, Nat.one_mul,
      List.getD_eq_getElem?_getD, List.getElem?_eq_getElem hin, Option.getD_some]
  · rw [if_neg hi, List.getElem?_eq_none (by rw [List.length_range']; omega), Option.map_none]

/-- The host looks up every row that the engine looks up. -/
theorem embedRow_ok {token : Nat} {row : List F}
    (h : embeddingRow p.weights.tokenEmbeddingTable token p.cfg.dim = .ok row) :
    (ofPass p keys values).embedRow token = .ok row := by
  unfold embeddingRow at h
  have hdebug : (ofPass p keys values).embedDtype = p.weights.tokenEmbeddingTable.dtype.debug := rfl
  unfold embedRow
  rw [hdebug]
  cases hdtype : p.weights.tokenEmbeddingTable.dtype with
  | f32 =>
    rw [hdtype] at h
    obtain ⟨numel, hnumel, h⟩ := bind_eq_ok.mp h
    obtain ⟨need, hneed, h⟩ := bind_eq_ok.mp h
    split at h
    next => cases h
    next =>
      obtain ⟨w, hw, h⟩ := bind_eq_ok.mp h
      unfold f32View at hw
      split at hw
      next => cases hw
      next =>
        split at hw
        next => cases hw
        next =>
          cases hw
          exact embedFloats_ok h
  | q4_0 | q4_k | q6_k | q5_0 | q8_0 =>
    rw [hdtype] at h
    exact embedBlocks_ok h
  | f16 | other =>
    rw [hdtype] at h
    cases h

end MetalForward

/-! ### A step of the engine that returns -/

section Engine

variable [F32 F] {p : Pass F} {s : RunState F} {x x' : Tensor F}

theorem turned_inside {ts : List (PairTurn F)} {xs ys : List F} (h : turned ts xs = .ok ys) :
    ys.length = xs.length ∧ ∀ t ∈ ts, t.first < xs.length ∧ t.second < xs.length := by
  induction ts generalizing xs with
  | nil =>
    cases h
    exact ⟨rfl, fun t ht => absurd ht List.not_mem_nil⟩
  | cons t ts ih =>
    obtain ⟨zs, hfirst, h⟩ := bind_eq_ok.mp h
    obtain ⟨a, ha, hfirst⟩ := bind_eq_ok.mp hfirst
    obtain ⟨b, hb, hfirst⟩ := bind_eq_ok.mp hfirst
    obtain ⟨us, hus, hzs⟩ := bind_eq_ok.mp hfirst
    obtain ⟨hin, rfl⟩ := store_eq_ok.mp hus
    obtain ⟨-, rfl⟩ := store_eq_ok.mp hzs
    obtain ⟨hlength, hrest⟩ := ih h
    rw [List.length_set, List.length_set] at hlength hrest
    have hsecond := (List.getElem?_eq_some_iff.mp (index_eq_ok.mp hb)).1
    exact ⟨hlength, List.forall_mem_cons.mpr ⟨⟨hin, hsecond⟩, hrest⟩⟩

/-- A rotation that returned had heads to rotate, and its pairs ended with the query. -/
theorem ropeBoth_reached {off : Nat} {q keys : List F} {out : List F × List F} (hdim : 0 < p.cfg.dim)
    (hq : q.length = p.cfg.nHeads * p.headSize) (hwidth : p.cfg.nHeads * p.headSize ≤ p.cfg.dim)
    (h : p.ropeBoth off q keys = .ok out) :
    0 < p.headSize ∧
      (p.weights.ropeNeox = false → p.cfg.dim = p.cfg.nHeads * p.headSize ∧ p.cfg.dim % 2 = 0) := by
  cases hneox : p.weights.ropeNeox with
  | true =>
    unfold Pass.ropeBoth at h
    rw [if_pos hneox] at h
    obtain ⟨q', -, h⟩ := bind_eq_ok.mp h
    obtain ⟨nKv, hnKv, -⟩ := bind_eq_ok.mp h
    exact ⟨(div_eq_ok.mp hnKv).1, fun hpairs => nomatch hpairs⟩
  | false =>
    have hlast : p.pairTurn ((p.cfg.dim + 1) / 2 - 1) ∈ p.qTurns := by
      unfold Pass.qTurns
      rw [if_neg (by rw [hneox]; decide)]
      exact List.mem_map_of_mem (List.mem_range.mpr (by omega))
    have hinside := ((turned_inside (Pass.ropeBoth_turned h).1).2 _ hlast).2
    rw [hq] at hinside
    change 2 * ((p.cfg.dim + 1) / 2 - 1) + 1 < p.cfg.nHeads * p.headSize at hinside
    refine ⟨Nat.pos_of_mul_pos_left (Nat.lt_of_le_of_lt (Nat.zero_le _) hinside), fun _ => ⟨by omega, by omega⟩⟩

/-- A layer that returned had its weights and sizes, and its row lay in the caches. -/
theorem layerStep_reached (hp : p.Derived) (hplan : p.plan = none) {layer : Nat} {t : RunState F × Observers F}
    (h : (p.layerStep layer x).eval (s, Observers.none) = (.ok x', t)) :
    (IsResidual p x → p.LayerReached) ∧ layer < p.weights.layers.length ∧ t.2 = Observers.none ∧
      (s.Fits p → p.rowOff layer p.pos + p.kvDim ≤ p.cells ∧ t.1.Fits p) := by
  obtain ⟨blk, q, k, u, keys, values, q', keys', heads, hblk, hproject, hkeys, hvalues, hboth, hheads, -, rfl⟩ :=
    layerStep_inv hplan h
  obtain ⟨xb, hxb, hproject⟩ := bind_eq_ok.mp hproject
  obtain ⟨outDim, hout, hproject⟩ := bind_eq_ok.mp hproject
  obtain ⟨q₀, hq, hproject⟩ := bind_eq_ok.mp hproject
  obtain ⟨k₀, -, hproject⟩ := bind_eq_ok.mp hproject
  obtain ⟨u₀, -, hproject⟩ := bind_eq_ok.mp hproject
  cases hproject
  cases hp.attnQOutDim_eq hout
  obtain ⟨hkeysEnd, hkeysLength⟩ := copyInto_inside hkeys
  obtain ⟨-, hvaluesLength⟩ := copyInto_inside hvalues
  have hrotated := (turned_inside (Pass.ropeBoth_turned hboth).2).1
  refine ⟨fun hx => ?_, (List.getElem?_eq_some_iff.mp hblk).1, rfl, fun hs => ⟨?_, ?_, ?_⟩⟩
  · have hdim : 0 < p.cfg.dim := by
      obtain ⟨y, hy, -⟩ := bind_eq_ok.mp hxb
      have hpos := rmsNormSlice_pos hy
      rw [hx, List.getLastD_cons, List.getLastD_nil] at hpos
      exact hpos
    have hqLength : (addBias q₀ blk.bq).length = p.cfg.nHeads * p.headSize := by
      rw [length_addBias, length_linearDispatch hq]
    obtain ⟨hsize, hpairs⟩ := ropeBoth_reached hdim hqLength hp.qOut_le hboth
    obtain ⟨zeros, -, hheads⟩ := bind_eq_ok.mp hheads
    obtain ⟨out, out', hfirst⟩ := forFrom_each hheads hp.heads
    obtain ⟨kvHead, hkvHead, -⟩ := bind_eq_ok.mp hfirst
    exact ⟨hsize, (div_eq_ok.mp hkvHead).1, hpairs⟩
  · rw [← hs.keys]
    exact hkeysEnd
  · exact hrotated.trans (hkeysLength.trans hs.keys)
  · exact hvaluesLength.trans hs.values

/-- A step that returned looked its token up, and got through its layers in the context. -/
theorem forward_reached (hp : p.Derived) (hplan : p.plan = none) {token : UInt32} {logits : Tensor F}
    {s' : RunState F × Observers F} (h : (p.forward token).eval (s, Observers.none) = (.ok logits, s')) :
    p.Reached ∧ (∃ row : List F, embeddingRow p.weights.tokenEmbeddingTable token.toNat p.cfg.dim = .ok row) ∧
      (s.Fits p → 0 < p.cfg.nLayers → p.pos < p.cfg.seqLen) := by
  obtain ⟨x, t₁, hembed, h⟩ := eval_bind_eq_ok.mp h
  obtain ⟨x', t₂, hloop, -⟩ := eval_bind_eq_ok.mp h
  rw [(quiet_embed hplan token).eval] at hembed
  obtain ⟨hlookup, rfl⟩ := Prod.mk.inj hembed
  obtain ⟨row, hrow, hx⟩ := bind_eq_ok.mp hlookup
  have hresidual : IsResidual p x := (vectorTensor_iff.mp hx).dims
  obtain ⟨past, hstart, -, hsteps⟩ := history hloop
  -- no layer is observed, and the caches keep their sizes
  have hkept : ∀ i ≤ p.cfg.nLayers, (past i).2.2 = Observers.none ∧ (s.Fits p → (past i).2.1.Fits p) := by
    intro i
    induction i with
    | zero =>
      intro _
      rw [hstart]
      exact ⟨rfl, id⟩
    | succ i ih =>
      intro hi
      obtain ⟨hquiet, hfits⟩ := ih (by omega)
      have hstep := hsteps i hi
      rw [show (past i).2 = ((past i).2.1, Observers.none) from Prod.ext rfl hquiet] at hstep
      obtain ⟨-, -, hnext, hrest⟩ := layerStep_reached hp hplan hstep
      exact ⟨hnext, fun hs => (hrest (hfits hs)).2⟩
  have hlayer : ∀ i < p.cfg.nLayers, i < p.weights.layers.length ∧
      (s.Fits p → p.rowOff i p.pos + p.kvDim ≤ p.cells) := by
    intro i hi
    obtain ⟨hquiet, hfits⟩ := hkept i (Nat.le_of_lt hi)
    have hstep := hsteps i hi
    rw [show (past i).2 = ((past i).2.1, Observers.none) from Prod.ext rfl hquiet, Nat.zero_add] at hstep
    obtain ⟨-, hlt, -, hrest⟩ := layerStep_reached hp hplan hstep
    exact ⟨hlt, fun hs => (hrest (hfits hs)).1⟩
  have hfirst : 0 < p.cfg.nLayers → p.LayerReached := by
    intro hsome
    have hstep := hsteps 0 hsome
    rw [hstart] at hstep
    exact (layerStep_reached hp hplan hstep).1 hresidual
  refine ⟨⟨?_, hfirst⟩, ⟨row, hrow⟩, fun hs hsome => ?_⟩
  · by_contra hmissing
    exact Nat.lt_irrefl _ (hlayer p.weights.layers.length (by omega)).1
  · have hrow := (hlayer (p.cfg.nLayers - 1) (by omega)).2 hs
    have hkv : 0 < p.kvDim := hp.kvDim_pos (hfirst hsome).heads
    -- the row of the last layer is the last one of the caches
    rw [Pass.rowOff_eq, ← Nat.succ_mul] at hrow
    have hlast := Nat.le_of_mul_le_mul_right hrow hkv
    unfold Pass.rowIndex at hlast
    have hlayers : p.cfg.nLayers * p.cfg.seqLen = (p.cfg.nLayers - 1) * p.cfg.seqLen + p.cfg.seqLen := by
      rw [← Nat.succ_mul, Nat.succ_eq_add_one, Nat.sub_add_cancel hsome]
    omega

end Engine

end VitniTensor
