import VitniTensor.Model.Accel
import VitniTensor.Model.NetQuantized

/-!
# The F32 passes as nets

On weights whose sections have the sizes of the configuration, the tensors and loops of an F32 pass compute the
net of its weights, with scores and value sums added up in order.
-/

namespace VitniTensor

open Outcome Exec Rows Rope Fill

variable {F : Type} [F32 F]

theorem serialLoop_eq {body : Nat → F → Res F} {v : Nat → F} {n : Nat}
    (h : ∀ i < n, ∀ acc, body i acc = .ok (F32.add acc (v i))) :
    forRange n body F32.zero = .ok (serialValue v n) := by
  obtain ⟨sum, hrun, hsum⟩ := @forFrom_ok Error F (fun i acc => acc = serialValue v i) 0 n body F32.zero rfl (by
    rintro i acc - hi rfl
    rw [Nat.zero_add] at hi
    exact ⟨_, h i hi _, (serialValue_succ v i).symm⟩)
  rw [Nat.zero_add] at hsum
  rw [hsum] at hrun
  exact hrun

/-! ### Nets of F32 passes -/

/-- What an architecture computes in its own way, on lists. -/
structure CpuArchitecture.Values (cpu : CpuArchitecture F) where
  norm : List F → List F → List F
  act : F → F
  length_norm : ∀ {ws xs : List F}, ws.length = xs.length → (norm ws xs).length = xs.length
  norm_ok : ∀ {n : Nat} {x w : Tensor F} {xs ws : List F}, 0 < n → n * 4 < 2 ^ 63 → x.Is [n] xs → w.Is [n] ws →
    xs.length = n → ws.length = n → ∃ z, cpu.norm x w = .ok z ∧ z.Is [n] (norm ws xs)
  act_ok : ∀ {dims : List Nat} {t : Tensor F} {xs : List F}, t.Is dims xs →
    ∃ z, cpu.act t = .ok z ∧ z.Is dims (xs.map act)

def CpuArchitecture.llamaValues : (CpuArchitecture.llama : CpuArchitecture F).Values where
  norm ws xs := rmsValue ws rmsEpsilon xs
  act := Tensor.siluOf
  length_norm := length_rmsValue rmsEpsilon
  norm_ok hn _ hx hw hxs hws := by
    obtain ⟨z, hz, his⟩ := rmsNormSlice_value hn hx hxs hws rmsEpsilon
    exact ⟨z, (hx.rmsNorm_eq hw rmsEpsilon).trans hz, his⟩
  act_ok := Tensor.Is.silu_ok

/-- Every section holds its part for every layer. -/
structure Weights.Sized (w : Weights F) (cfg : Config) (kvDim : Nat) : Prop where
  embedding : w.tokenEmbeddingTable.length = cfg.vocabSize * cfg.dim
  rmsAtt : w.rmsAttWeight.length = cfg.nLayers * cfg.dim
  wq : w.wq.length = cfg.nLayers * (cfg.dim * cfg.dim)
  wk : w.wk.length = cfg.nLayers * (cfg.dim * kvDim)
  wv : w.wv.length = cfg.nLayers * (cfg.dim * kvDim)
  wo : w.wo.length = cfg.nLayers * (cfg.dim * cfg.dim)
  rmsFfn : w.rmsFfnWeight.length = cfg.nLayers * cfg.dim
  w1 : w.w1.length = cfg.nLayers * (cfg.dim * cfg.hiddenDim)
  w2 : w.w2.length = cfg.nLayers * (cfg.dim * cfg.hiddenDim)
  w3 : w.w3.length = cfg.nLayers * (cfg.dim * cfg.hiddenDim)
  rmsFinal : w.rmsFinalWeight.length = cfg.dim
  wcls : w.wcls.length = cfg.vocabSize * cfg.dim

/-- No slice of floats is longer than memory. -/
structure Weights.InMemory (w : Weights F) : Prop where
  wq : w.wq.length * 4 < 2 ^ 63
  wk : w.wk.length * 4 < 2 ^ 63
  w1 : w.w1.length * 4 < 2 ^ 63
  rmsFinal : w.rmsFinalWeight.length * 4 < 2 ^ 63
  wcls : w.wcls.length * 4 < 2 ^ 63

namespace DensePass

variable (d : DensePass F)

/-- A quantized pass of the same sizes: its caches are addressed alike. -/
def frame : Pass F where
  build := .serial
  blake3 := noHash
  cfg := d.cfg
  weights := ⟨⟨[], .f32, [], true⟩, [], [], none, ropeBase, rmsEpsilon, false⟩
  plan := none
  pos := d.pos
  kvDim := d.kvDim
  kvMul := d.kvMul
  headSize := d.headSize
  regime := 2

def atPos (pos : Nat) : DensePass F :=
  { d with pos }

/-- The parts of layer `layer`. -/
def block (layer : Nat) : Block F where
  rmsAtt := row d.cfg.dim d.weights.rmsAttWeight layer
  wq := row (d.cfg.dim * d.cfg.dim) d.weights.wq layer
  wk := row (d.cfg.dim * d.kvDim) d.weights.wk layer
  wv := row (d.cfg.dim * d.kvDim) d.weights.wv layer
  wo := row (d.cfg.dim * d.cfg.dim) d.weights.wo layer
  rmsFfn := row d.cfg.dim d.weights.rmsFfnWeight layer
  w1 := row (d.cfg.dim * d.cfg.hiddenDim) d.weights.w1 layer
  w2 := row (d.cfg.dim * d.cfg.hiddenDim) d.weights.w2 layer
  w3 := row (d.cfg.dim * d.cfg.hiddenDim) d.weights.w3 layer

/-- What an architecture computes on the weights of the pass, at every position. -/
def net {cpu : CpuArchitecture F} (values : cpu.Values) : Net F where
  dim := d.cfg.dim
  hiddenDim := d.cfg.hiddenDim
  nHeads := d.cfg.nHeads
  headSize := d.headSize
  kvMul := d.kvMul
  kvDim := d.kvDim
  vocabSize := d.cfg.vocabSize
  embedding := d.weights.tokenEmbeddingTable
  blocks := (List.range d.cfg.nLayers).map d.block
  rmsFinal := d.weights.rmsFinalWeight
  head := d.weights.wcls
  scale := cpu.scale d.cfg.dim
  norm := values.norm
  act := values.act
  angle := fun pos => (d.atPos pos).frame.pairAngle

/-- A pass on sections of the exact size. -/
structure IsSized : Prop where
  shaped : d.frame.WellShaped
  dim : 0 < d.cfg.dim
  weights : d.weights.Sized d.cfg d.kvDim
  memory : d.weights.InMemory
  seqLen : d.cfg.seqLen < wordSize

/-- A matrix of a layer is no longer than the section it is in. -/
structure LayerFits : Prop where
  square : FitsMatrix d.cfg.dim d.cfg.dim
  kv : FitsMatrix d.kvDim d.cfg.dim
  up : FitsMatrix d.cfg.hiddenDim d.cfg.dim
  down : FitsMatrix d.cfg.dim d.cfg.hiddenDim

variable {d}

theorem IsSized.memory_dim (hd : d.IsSized) : d.cfg.dim * 4 < 2 ^ 63 := by
  rw [← hd.weights.rmsFinal]
  exact hd.memory.rmsFinal

theorem IsSized.layerFits (hd : d.IsSized) {layer : Nat} (hlayer : layer < d.cfg.nLayers) : d.LayerFits := by
  -- One layer's share of a stacked matrix is no larger than the whole.
  have hpart : ∀ {n len : Nat}, len = d.cfg.nLayers * n → len * 4 < 2 ^ 63 → n * 4 < 2 ^ 63 := by
    intro n len hlen hmemory
    have hle := Nat.le_mul_of_pos_left n (Nat.zero_lt_of_lt hlayer)
    omega
  have hrows : ∀ {n : Nat}, d.cfg.dim * n * 4 < 2 ^ 63 → n * 4 < 2 ^ 63 := by
    intro n h
    have hle := Nat.le_mul_of_pos_left n hd.dim
    omega
  have hdim := hd.memory_dim
  have hk := hpart hd.weights.wk hd.memory.wk
  have h1 := hpart hd.weights.w1 hd.memory.w1
  refine ⟨⟨hpart hd.weights.wq hd.memory.wq, hdim, hdim⟩, ⟨?_, hrows hk, hdim⟩, ⟨?_, hrows h1, hdim⟩, ⟨h1, hdim, hrows h1⟩⟩
  · rw [Nat.mul_comm d.kvDim]
    exact hk
  · rw [Nat.mul_comm d.cfg.hiddenDim]
    exact h1

section Net

variable {cpu : CpuArchitecture F} (values : cpu.Values)

theorem IsSized.block_sized (hd : d.IsSized) {layer : Nat} (hlayer : layer < d.cfg.nLayers) :
    (d.block layer).Sized (d.net values) where
  rmsAtt := length_row hlayer hd.weights.rmsAtt
  wq := length_row hlayer hd.weights.wq
  wk := (length_row hlayer hd.weights.wk).trans (Nat.mul_comm _ _)
  wv := (length_row hlayer hd.weights.wv).trans (Nat.mul_comm _ _)
  wo := length_row hlayer hd.weights.wo
  rmsFfn := length_row hlayer hd.weights.rmsFfn
  w1 := (length_row hlayer hd.weights.w1).trans (Nat.mul_comm _ _)
  w2 := length_row hlayer hd.weights.w2
  w3 := (length_row hlayer hd.weights.w3).trans (Nat.mul_comm _ _)

theorem IsSized.net_sized (hd : d.IsSized) : (d.net values).Sized where
  heads := hd.shaped.dim
  dim := hd.dim
  norm := fun hws hxs => (values.length_norm (hws.trans hxs.symm)).trans hxs
  embedding := hd.weights.embedding
  blocks := by
    intro blk hmem
    obtain ⟨layer, hlayer, rfl⟩ := List.mem_map.mp hmem
    exact hd.block_sized values (List.mem_range.mp hlayer)
  rmsFinal := hd.weights.rmsFinal
  head := hd.weights.wcls

end Net

omit [F32 F] in
/-- The part of a layer in a section. -/
theorem layerSlice_row {ws : List F} {layer nLayers n : Nat} (hlayer : layer < nLayers) (hws : ws.length = nLayers * n) :
    layerSlice ws layer n = .ok (row n ws layer) := by
  unfold layerSlice
  rw [Nat.succ_mul]
  exact slice_eq_row hlayer hws

/-! ### Attention -/

section Attention

variable {cpu : CpuArchitecture F} (values : cpu.Values) {q keys cells : List F} {layer h : Nat}

/-- An entry of a key that head `h` reads. -/
theorem kvEntry_lt (hd : d.frame.WellShaped) (hh : h < d.cfg.nHeads) {i : Nat} (hi : i < d.headSize) :
    h / d.kvMul * d.headSize + i < d.kvDim := by
  have hkv : h / d.kvMul < d.cfg.nKvHeads := Causal.kvHead_lt hd hh
  have hkvDim : d.kvDim = d.cfg.nKvHeads * d.headSize := hd.kvDim
  rw [hkvDim]
  exact entry_lt hkv hi

theorem length_kvHead (hd : d.frame.WellShaped) (hh : h < d.cfg.nHeads) {key : List F} (hkey : key.length = d.kvDim) :
    (row d.headSize key (h / d.kvMul)).length = d.headSize :=
  Causal.length_kvHead hd hh hkey

theorem score_value (hd : d.frame.WellShaped) (hq : q.length = d.cfg.dim) (hkeys : keys.length = d.frame.cells)
    (hlayer : layer < d.cfg.nLayers) {t : Nat} (ht : t < d.cfg.seqLen) (hh : h < d.cfg.nHeads) :
    d.score layer q keys h t =
      .ok ((d.net values).score serialValue q h (row d.kvDim keys (d.frame.rowIndex layer t))) := by
  have hr := @Pass.rowIndex_lt F d.frame layer t hlayer ht
  have hqHead : (row d.headSize q h).length = d.headSize := length_row hh (hq.trans hd.dim)
  have hkHead := length_kvHead hd hh (length_row hr hkeys)
  -- Each turn multiplies an entry of the query's head with the same entry of the key's.
  have hproduct : ∀ i < d.headSize, ∀ acc : F,
      addProduct q keys (h * d.headSize + i) (d.rowOff layer t + h / d.kvMul * d.headSize + i) acc =
        .ok (F32.add acc (productOf (row d.headSize q h)
          (row d.headSize (row d.kvDim keys (d.frame.rowIndex layer t)) (h / d.kvMul)) i)) := by
    intro i hi acc
    have hin := kvEntry_lt hd hh hi
    have hoff : d.rowOff layer t = d.frame.rowIndex layer t * d.kvDim := @Pass.rowOff_eq F d.frame layer t
    unfold addProduct
    rw [index_inRow hi, index_getD (by omega), ok_bind, hoff, Nat.add_assoc, index_inRow hin, index_inRow hi,
      index_getD (by rw [hkHead]; exact hi), ok_bind]
    rfl
  have hgroup : (div h d.kvMul : Res Nat) = .ok (h / d.kvMul) := div_of_pos hd.kvMulPos
  unfold score
  rw [hgroup, ok_bind]
  change (forRange d.headSize (fun i => addProduct q keys (h * d.headSize + i)
    (d.rowOff layer t + h / d.kvMul * d.headSize + i)) F32.zero >>= fun score => _) = _
  rw [serialLoop_eq hproduct, ok_bind]
  rfl

/-- The weighted value that position `t` adds to entry `i` of head `h`. -/
def weighted (d : DensePass F) (values : cpu.Values) (layer : Nat) (probs cells : List F) (h t i : Nat) : F :=
  productOf probs ((d.net values).valueColumn (d.frame.pastRows cells layer (d.pos + 1)) h i) t

theorem addValue_value (hd : d.frame.WellShaped) (hcells : cells.length = d.frame.cells) (hlayer : layer < d.cfg.nLayers)
    (hpos : d.pos < d.cfg.seqLen) {t : Nat} (ht : t < d.pos + 1) (hh : h < d.cfg.nHeads) (probs : List F) {i : Nat}
    (hi : i < d.headSize) :
    InRow d.headSize d.cfg.nHeads h
      (addValue cells (d.rowOff layer t + h / d.kvMul * d.headSize) (h * d.headSize) (probs.getD t F32.zero) i)
      (fun xs => do
        let x ← index xs i
        let y ← .ok (F32.add x (d.weighted values layer probs cells h t i))
        store xs i y) := by
  have hr := @Pass.rowIndex_lt F d.frame layer t hlayer (Nat.lt_of_lt_of_le ht hpos)
  have hvHead := length_kvHead hd hh (length_row hr hcells)
  have hin := kvEntry_lt hd hh hi
  have hoff : d.rowOff layer t = d.frame.rowIndex layer t * d.kvDim := @Pass.rowOff_eq F d.frame layer t
  -- The cell the kernel reads is the column's entry at position `t`.
  have hcell : (index cells (d.rowOff layer t + h / d.kvMul * d.headSize + i) : Res F) =
      .ok (((d.net values).valueColumn (d.frame.pastRows cells layer (d.pos + 1)) h i).getD t F32.zero) := by
    unfold Net.valueColumn Pass.pastRows
    rw [hoff, Nat.add_assoc, index_inRow hin, index_inRow hi, index_getD (by rw [hvHead]; exact hi), List.map_map,
      List.getD_eq_getElem?_getD (i := t), List.getElem?_map, List.getElem?_range ht]
    rfl
  intro xs hxs
  have hrow := length_row hh hxs
  -- The row of the head gets one cell changed, and stays inside its head.
  refine ⟨(row d.headSize xs h).set i (F32.add (row d.headSize xs h)[i] (d.weighted values layer probs cells h t i)), ?_, ?_, ?_⟩
  · dsimp only
    rw [index_of_lt (by omega), ok_bind, ok_bind, store_of_lt (by omega)]
  · rw [List.length_set, hrow]
  · unfold addValue
    rw [index_inRow hi, index_of_lt (by omega), ok_bind, hcell, ok_bind, store_inRow hh hxs hi]
    rfl

/-- One turn of the loop over positions, on the part of the output that is the head's. -/
theorem addPosition_value (hd : d.frame.WellShaped) (hcells : cells.length = d.frame.cells) (hlayer : layer < d.cfg.nLayers)
    (hpos : d.pos < d.cfg.seqLen) {t : Nat} (ht : t < d.pos + 1) (hh : h < d.cfg.nHeads) {probs : List F}
    (hprobs : probs.length = d.pos + 1) :
    InRow d.headSize d.cfg.nHeads h (d.addPosition layer probs cells h t) (fun xs =>
      .ok ((List.range d.headSize).map fun i =>
        F32.add (xs.getD i F32.zero) (d.weighted values layer probs cells h t i))) := by
  intro xs hxs
  have heach : ∀ i, 0 ≤ i → i < 0 + d.headSize → InRow d.headSize d.cfg.nHeads h _ _ :=
    fun i _ hi => addValue_value values hd hcells hlayer hpos ht hh probs (show i < d.headSize by omega)
  -- The inner loop runs over the cells of this head alone.
  obtain ⟨ys, hrun, hys, hall⟩ := InRow.loop hh heach xs hxs
  have hloop := @forRange_updateAt Error F (fun i x => .ok (F32.add x (d.weighted values layer probs cells h t i)))
    (fun i x => F32.add x (d.weighted values layer probs cells h t i)) (row d.headSize xs h) d.headSize (length_row hh hxs)
    F32.zero (fun _ _ _ => rfl)
  obtain rfl := Except.ok.inj (hrun.symm.trans hloop)
  have hgroup : (div h d.kvMul : Res Nat) = .ok (h / d.kvMul) := div_of_pos hd.kvMulPos
  refine ⟨_, rfl, hys, ?_⟩
  unfold addPosition
  rw [hgroup, ok_bind, index_getD (by omega), ok_bind]
  exact hall

theorem attendHead_value (hd : d.frame.WellShaped) (hq : q.length = d.cfg.dim) (hkeys : keys.length = d.frame.cells)
    (hcells : cells.length = d.frame.cells) (hlayer : layer < d.cfg.nLayers) (hpos : d.pos < d.cfg.seqLen)
    (hseq : d.cfg.seqLen < wordSize) (hh : h < d.cfg.nHeads) {out : List F} (hout : out.length = d.cfg.nHeads * d.headSize)
    (hzero : row d.headSize out h = List.replicate d.headSize F32.zero) :
    d.attendHead layer q keys cells h out =
      .ok (setRow d.headSize h ((d.net values).attentionHead serialValue q (d.frame.pastRows keys layer (d.pos + 1))
        (d.frame.pastRows cells layer (d.pos + 1)) h) out) := by
  have hscores : collectRange (d.pos + 1) (d.score layer q keys h) =
      .ok ((d.frame.pastRows keys layer (d.pos + 1)).map ((d.net values).score serialValue q h)) := by
    unfold Pass.pastRows
    rw [collectRange_eq fun t ht => score_value values hd hq hkeys hlayer (Nat.lt_of_lt_of_le ht hpos) hh, List.map_map]
    rfl
  obtain ⟨scores, hscoresEq⟩ :
      ∃ scores, scores = (d.frame.pastRows keys layer (d.pos + 1)).map ((d.net values).score serialValue q h) :=
    ⟨_, rfl⟩
  have hcount : scores.length = d.pos + 1 := by rw [hscoresEq, List.length_map, Pass.length_pastRows]
  have hprobs : (softmaxValue scores).length = d.pos + 1 := by rw [length_softmaxValue, hcount]
  have hsoft : softmaxRow (d.pos + 1) scores = .ok (softmaxValue scores) := by
    rw [← hcount, ← softmaxInplace_eq_row, softmaxInplace_value]
  obtain ⟨att, hatt, hisAtt⟩ := vector_ok hcount (show d.pos + 1 < wordSize by omega)
  obtain ⟨probs, hprobsRun, hisProbs⟩ := hisAtt.softmax_ok (Nat.succ_pos d.pos) hcount hsoft
  -- after `t` positions, the part holds the sums of their terms
  obtain ⟨out', hrun, hout'⟩ := @forFrom_ok Error (List F)
    (fun t ys => ys = setRow d.headSize h ((List.range d.headSize).map fun i =>
      serialValue (d.weighted values layer (softmaxValue scores) cells h · i) t) out) 0 (d.pos + 1)
    (d.addPosition layer (softmaxValue scores) cells h) out
    (by
      have hsame : ((List.range d.headSize).map fun _ => (F32.zero : F)) = row d.headSize out h := by
        rw [hzero, List.map_const', List.length_range]
      exact (setRow_row hh hout).symm.trans (congrArg (fun ys => setRow d.headSize h ys out) hsame.symm))
    (by
      rintro t ys - ht rfl
      rw [Nat.zero_add] at ht
      have hpart : ((List.range d.headSize).map fun i =>
          serialValue (d.weighted values layer (softmaxValue scores) cells h · i) t).length = d.headSize := by
        rw [List.length_map, List.length_range]
      obtain ⟨zs, hzs, hlength, hstep⟩ := addPosition_value values hd hcells hlayer hpos ht hh hprobs _
        ((length_setRow hh hout hpart).trans hout)
      refine ⟨_, hstep, ?_⟩
      rw [setRow_setRow hh hout hpart hlength]
      rw [row_setRow hh hout hpart] at hzs
      rw [← Except.ok.inj hzs]
      congr 1
      apply List.map_congr_left
      intro i hi
      rw [serialValue_succ, List.getD_eq_getElem?_getD, List.getElem?_map, List.getElem?_range (List.mem_range.mp hi)]
      rfl)
  rw [Nat.zero_add] at hout'
  unfold attendHead
  rw [hscores, ok_bind, ← hscoresEq, hatt, ok_bind, hprobsRun, ok_bind, tensorAsF32_ok hisProbs, ok_bind]
  refine hrun.trans ?_
  rw [hout', hscoresEq]
  unfold Net.attentionHead Net.valueSum
  simp only [Pass.length_pastRows]
  rfl

theorem attend_value (hd : d.frame.WellShaped) (hq : q.length = d.cfg.dim) (hkeys : keys.length = d.frame.cells)
    (hcells : cells.length = d.frame.cells) (hlayer : layer < d.cfg.nLayers) (hpos : d.pos < d.cfg.seqLen)
    (hseq : d.cfg.seqLen < wordSize) (hmemory : d.cfg.dim * 4 < 2 ^ 63) :
    d.attend layer q keys cells = .ok ((d.net values).attention serialValue q
      (d.frame.pastRows keys layer (d.pos + 1)) (d.frame.pastRows cells layer (d.pos + 1))) := by
  have hinit : (List.replicate d.cfg.dim (F32.zero : F)).length = d.cfg.nHeads * d.headSize := by
    rw [List.length_replicate]
    exact hd.dim
  -- Before the heads are written, each one is a row of zeros.
  have hzero : ∀ h < d.cfg.nHeads, row d.headSize (List.replicate d.cfg.dim (F32.zero : F)) h =
      List.replicate d.headSize F32.zero := by
    intro h hh
    have hend := row_end_le hh hinit
    rw [List.length_replicate] at hend
    unfold row
    rw [List.drop_replicate, List.take_replicate, Nat.min_eq_left (by omega)]
  have hzeros : (zeroVec d.cfg.dim : Res (List F)) = .ok (List.replicate d.cfg.dim F32.zero) := if_pos hmemory
  unfold attend
  rw [hzeros, ok_bind]
  -- One head after the other, each writing its own row.
  exact forRange_setRow hinit (fun _ _ => Net.length_attentionHead ..) fun h hh out hout hrow =>
    attendHead_value values hd hq hkeys hcells hlayer hpos hseq hh hout (hrow.trans (hzero h hh))

end Attention

/-! ### The linears of a layer -/

section Layer

variable {cpu : CpuArchitecture F} (values : cpu.Values) {layer : Nat} {x : Tensor F} {xs : List F}

/-- The pre-norm, as a vector and as a one-row matrix. -/
theorem preNorm_value (hd : d.IsSized) (hx : x.Is [d.cfg.dim] xs) (hxs : xs.length = d.cfg.dim) {ws : List F}
    (hws : ws.length = d.cfg.dim) :
    ∃ xb xb2d, cpu.preNorm x ws d.cfg.dim = .ok xb ∧ xbTo2d xb d.cfg.dim = .ok xb2d ∧
      xb2d.Is [1, d.cfg.dim] (values.norm ws xs) ∧ (values.norm ws xs).length = d.cfg.dim := by
  have hfits := lt_wordSize hd.memory_dim
  have hlength : (values.norm ws xs).length = d.cfg.dim := (values.length_norm (hws.trans hxs.symm)).trans hxs
  -- The function norms a vector and hands it on as a matrix of one row.
  obtain ⟨w, hw, hisw⟩ := vector_ok hws hfits
  obtain ⟨xb, hxb, hisXb⟩ := values.norm_ok hd.dim hd.memory_dim hx hisw hxs hws
  obtain ⟨xb2d, h2d, his2d⟩ := @matrix_ok F (values.norm ws xs) 1 d.cfg.dim (by rw [hlength, Nat.one_mul])
    (by rw [Nat.one_mul]; exact hfits) hfits
  refine ⟨xb, xb2d, ?_, ?_, his2d, hlength⟩
  · unfold CpuArchitecture.preNorm
    rw [hw, ok_bind, hxb]
  · unfold xbTo2d
    rw [tensorAsF32_ok hisXb, ok_bind, h2d]

omit [F32 F] in
/-- One row as a vector. -/
theorem squeeze_ok {n : Nat} (hx : x.Is [1, n] xs) (hxs : xs.length = n) (hn : n < wordSize) :
    ∃ z, squeezeTo1d x n = .ok z ∧ z.Is [n] xs := by
  obtain ⟨z, hz, his⟩ := vector_ok hxs hn
  refine ⟨z, ?_, his⟩
  unfold squeezeTo1d
  rw [tensorAsF32_ok hx, ok_bind, hz]

/-- Query, key and value before the rotation. -/
theorem queryKeyValue_value (hd : d.IsSized) (hlayer : layer < d.cfg.nLayers) (hx : x.Is [d.cfg.dim] xs)
    (hxs : xs.length = d.cfg.dim) :
    ∃ qT kT vT q k v, cpu.queryKeyValue d layer x = .ok (qT, kT, vT) ∧ qT.Is [1, d.cfg.dim] q ∧ kT.Is [1, d.kvDim] k ∧
      vT.Is [1, d.kvDim] v ∧ q.length = d.cfg.dim ∧ k.length = d.kvDim ∧ v.length = d.kvDim ∧
      (d.net values).queryKeyValue d.pos (d.block layer) xs =
        (interleaved d.frame.pairAngle q, interleaved d.frame.pairAngle k, v) := by
  have hblk := hd.block_sized values hlayer
  have hfits := hd.layerFits hlayer
  -- The three projections start from the same normalized row.
  obtain ⟨xb, xb2d, hpre, h2d, his, hlength⟩ := preNorm_value values hd hx hxs hblk.rmsAtt
  obtain ⟨qT, hq, hisq⟩ := project_ok hfits.square his hlength hblk.wq
  obtain ⟨kT, hk, hisk⟩ := project_ok hfits.kv his hlength hblk.wk
  obtain ⟨vT, hv, hisv⟩ := project_ok hfits.kv his hlength hblk.wv
  refine ⟨qT, kT, vT, _, _, _, ?_, hisq, hisk, hisv, length_rowProducts .., length_rowProducts .., length_rowProducts ..,
    rfl⟩
  unfold CpuArchitecture.queryKeyValue
  -- The layer's parts are cut out of the stacked matrices one by one.
  rw [layerSlice_row hlayer hd.weights.rmsAtt, ok_bind]
  change (cpu.preNorm x (d.block layer).rmsAtt d.cfg.dim >>= fun xb => _) = _
  rw [hpre, ok_bind, h2d, ok_bind, layerSlice_row hlayer hd.weights.wq, ok_bind]
  change (project xb2d (d.block layer).wq d.cfg.dim d.cfg.dim >>= fun q => _) = _
  rw [hq, ok_bind, layerSlice_row hlayer hd.weights.wk, ok_bind]
  change (project xb2d (d.block layer).wk d.kvDim d.cfg.dim >>= fun k => _) = _
  rw [hk, ok_bind, layerSlice_row hlayer hd.weights.wv, ok_bind]
  change (project xb2d (d.block layer).wv d.kvDim d.cfg.dim >>= fun v => _) = _
  rw [hv, ok_bind]
  rfl

/-- Output projection and residual. -/
theorem attnOutput_value (hd : d.IsSized) (hlayer : layer < d.cfg.nLayers) (hx : x.Is [d.cfg.dim] xs)
    (hxs : xs.length = d.cfg.dim) {heads : List F} (hheads : heads.length = d.cfg.dim) :
    ∃ z, d.attnOutput layer x heads = .ok z ∧ z.Is [d.cfg.dim] ((d.net values).attnOutput (d.block layer) xs heads) := by
  have hfits := lt_wordSize hd.memory_dim
  obtain ⟨att, hatt, hisAtt⟩ := @matrix_ok F heads 1 d.cfg.dim (by rw [hheads, Nat.one_mul])
    (by rw [Nat.one_mul]; exact hfits) hfits
  have hwo : (d.block layer).wo.length = d.cfg.dim * d.cfg.dim := length_row hlayer hd.weights.wo
  obtain ⟨out, hout, hisOut⟩ := project_ok (hd.layerFits hlayer).square hisAtt hheads hwo
  obtain ⟨flat, hflat, hisFlat⟩ := squeeze_ok hisOut (length_rowProducts ..) hfits
  obtain ⟨z, hz, hisZ⟩ := hx.add_ok hisFlat (by rw [length_rowProducts, hxs])
  refine ⟨z, ?_, hisZ⟩
  unfold attnOutput
  rw [hatt, ok_bind, layerSlice_row hlayer hd.weights.wo, ok_bind]
  change (project att (d.block layer).wo d.cfg.dim d.cfg.dim >>= fun xb2 => _) = _
  rw [hout, ok_bind, hflat, ok_bind, hz]

/-- A matrix, transposed. -/
theorem transposed_ok {ws : List F} {inDim outDim : Nat} (hws : ws.length = outDim * inDim)
    (hfits : FitsMatrix outDim inDim) :
    ∃ w wT, sliceToTensor ws [outDim, inDim] = .ok w ∧ transpose2d w outDim inDim = .ok wT ∧
      wT.Is [inDim, outDim] (transposed ws outDim inDim) := by
  obtain ⟨hcells, hout, hin⟩ := hfits
  obtain ⟨w, hw, hisw⟩ := matrix_ok hws (lt_wordSize hcells) (lt_wordSize hin)
  obtain ⟨wT, hwT, hisT⟩ := transpose2d_ok hisw hws hcells (lt_wordSize hout)
  exact ⟨w, wT, hw, hwT, hisT⟩

theorem feedForward_value (hd : d.IsSized) (hlayer : layer < d.cfg.nLayers) (hx : x.Is [d.cfg.dim] xs)
    (hxs : xs.length = d.cfg.dim) :
    ∃ z, cpu.feedForward d layer x = .ok z ∧ z.Is [d.cfg.dim] ((d.net values).feedForward (d.block layer) xs) := by
  have hblk := hd.block_sized values hlayer
  have hfits := hd.layerFits hlayer
  obtain ⟨xb, xb2d, hpre, h2d, his, hlength⟩ := preNorm_value values hd hx hxs hblk.rmsFfn
  have h1 : (d.block layer).w1.length = d.cfg.hiddenDim * d.cfg.dim := hblk.w1
  have h3 : (d.block layer).w3.length = d.cfg.hiddenDim * d.cfg.dim := hblk.w3
  -- both halves of the FFN are transposed before either is multiplied
  obtain ⟨w1, w1T, hw1, hw1T, hisw1⟩ := transposed_ok h1 hfits.up
  obtain ⟨w3, w3T, hw3, hw3T, hisw3⟩ := transposed_ok h3 hfits.up
  obtain ⟨gate, hgate, hisGate⟩ := matmul_transposed hfits.up his hlength hisw1 h1
  obtain ⟨up, hup, hisUp⟩ := matmul_transposed hfits.up his hlength hisw3 h3
  obtain ⟨act, hact, hisAct⟩ := values.act_ok hisGate
  obtain ⟨inner, hinner, hisInner⟩ := hisAct.mul_ok hisUp (by rw [length_rowProducts, List.length_map, length_rowProducts])
  rw [List.zipWith_map_left] at hisInner
  obtain ⟨down, hdown, hisDown⟩ := project_ok hfits.down hisInner
    (by rw [List.length_zipWith, length_rowProducts, length_rowProducts, Nat.min_self]) hblk.w2
  obtain ⟨flat, hflat, hisFlat⟩ := squeeze_ok hisDown (length_rowProducts ..) (lt_wordSize hd.memory_dim)
  obtain ⟨z, hz, hisZ⟩ := hx.add_ok hisFlat (by rw [length_rowProducts, hxs])
  refine ⟨z, ?_, hisZ⟩
  unfold CpuArchitecture.feedForward
  rw [layerSlice_row hlayer hd.weights.rmsFfn, ok_bind]
  change (cpu.preNorm x (d.block layer).rmsFfn d.cfg.dim >>= fun xb => _) = _
  rw [hpre, ok_bind, h2d, ok_bind, layerSlice_row hlayer hd.weights.w1, ok_bind]
  change (sliceToTensor (d.block layer).w1 [d.cfg.hiddenDim, d.cfg.dim] >>= fun w1 => _) = _
  rw [hw1, ok_bind, hw1T, ok_bind, layerSlice_row hlayer hd.weights.w3, ok_bind]
  change (sliceToTensor (d.block layer).w3 [d.cfg.hiddenDim, d.cfg.dim] >>= fun w3 => _) = _
  rw [hw3, ok_bind, hw3T, ok_bind, hgate, ok_bind, hup, ok_bind, hact, ok_bind, hinner, ok_bind,
    layerSlice_row hlayer hd.weights.w2, ok_bind]
  change (project inner (d.block layer).w2 d.cfg.dim d.cfg.hiddenDim >>= fun down => _) = _
  rw [hdown, ok_bind, hflat, ok_bind, hz]

end Layer

/-! ### A whole step -/

section Step

variable {cpu : CpuArchitecture F} (values : cpu.Values) {s : RunState F} {layer : Nat} {x : Tensor F} {xs : List F}

theorem cacheRow_eval (hs : s.Fits d.frame) (hlayer : layer < d.cfg.nLayers) (hpos : d.pos < d.cfg.seqLen)
    {kT vT : Tensor F} {dims : List Nat} {k v : List F} (hkT : kT.Is dims k) (hvT : vT.Is dims v) (hk : k.length = d.kvDim)
    (hv : v.length = d.kvDim) : (d.cacheRow layer kT vT).eval s = (.ok (), s.writeRow d.frame layer (k, v)) := by
  have hr := @Pass.rowIndex_lt F d.frame layer d.pos hlayer hpos
  have hoff : d.rowOff layer d.pos = d.frame.rowIndex layer d.pos * d.kvDim := @Pass.rowOff_eq F d.frame layer d.pos
  -- Key and value go to the same row of their caches.
  have hkeys : (copyInto s.keyCache (d.frame.rowIndex layer d.pos * d.kvDim)
      (d.frame.rowIndex layer d.pos * d.kvDim + d.kvDim) k : Res (List F)) =
        .ok (setRow d.kvDim (d.frame.rowIndex layer d.pos) k s.keyCache) := copyInto_setRow hr hs.keys hk
  have hvalues : (copyInto s.valueCache (d.frame.rowIndex layer d.pos * d.kvDim)
      (d.frame.rowIndex layer d.pos * d.kvDim + d.kvDim) v : Res (List F)) =
        .ok (setRow d.kvDim (d.frame.rowIndex layer d.pos) v s.valueCache) := copyInto_setRow hr hs.values hv
  unfold cacheRow
  dsimp only
  rw [hoff, tensorAsF32_ok hkT, tensorAsF32_ok hvT, lift_ok, pure_bind, lift_ok, pure_bind,
    eval_bind_ok (eval_state _), hkeys, hvalues]
  rfl

theorem rope_eval (hd : d.frame.WellShaped) (hs : s.Fits d.frame) (hlayer : layer < d.cfg.nLayers)
    (hpos : d.pos < d.cfg.seqLen) {qT : Tensor F} {dims : List Nat} {q k v : List F} (hqT : qT.Is dims q)
    (hq : q.length = d.cfg.dim) (hk : k.length = d.kvDim) (hv : v.length = d.kvDim) :
    (d.rope layer qT).eval (s.writeRow d.frame layer (k, v)) =
      (.ok (interleaved d.frame.pairAngle q), s.writeRow d.frame layer (interleaved d.frame.pairAngle k, v)) := by
  have hr := @Pass.rowIndex_lt F d.frame layer d.pos hlayer hpos
  have hfits := hs.writeRow hlayer hpos (k, v) ⟨hk, hv⟩
  have hrow : row d.frame.kvDim (s.writeRow d.frame layer (k, v)).keyCache (d.frame.rowIndex layer d.pos) = k :=
    row_setRow hr hs.keys hk
  have hlike : d.Like d.frame := ⟨rfl, rfl, rfl, rfl, rfl⟩
  -- The loop turns the query, and the row of keys just stored.
  obtain ⟨q', k', hrotq, -, hrotk, hk', hrun⟩ := Pass.ropePairs_rows hd.evenHeads rfl hr hq hfits.keys
  rw [Causal.rotated_interleaved rfl hd.even (hq.trans hd.dim)] at hrotq
  rw [hrow, Nat.min_eq_right hd.kv_le, Causal.rotated_interleaved rfl hd.even (hk.trans hd.kvDim)] at hrotk
  cases hrotq
  cases hrotk
  -- Writing the row a second time replaces the unturned key.
  have hset : setRow d.kvDim (d.frame.rowIndex layer d.pos) (interleaved d.frame.pairAngle k)
      (s.writeRow d.frame layer (k, v)).keyCache =
        setRow d.kvDim (d.frame.rowIndex layer d.pos) (interleaved d.frame.pairAngle k) s.keyCache :=
    setRow_setRow hr hs.keys hk hk'
  have hoff : d.rowOff layer d.pos = d.frame.rowIndex layer d.pos * d.kvDim := @Pass.rowOff_eq F d.frame layer d.pos
  have hloop : forRange ((d.cfg.dim + 1) / 2) (d.frame.ropePair (d.frame.rowIndex layer d.pos * d.kvDim))
      (q, (s.writeRow d.frame layer (k, v)).keyCache) = .ok (interleaved d.frame.pairAngle q,
        setRow d.kvDim (d.frame.rowIndex layer d.pos) (interleaved d.frame.pairAngle k) s.keyCache) := hset ▸ hrun
  unfold rope
  rw [tensorAsF32_ok hqT, lift_ok, pure_bind, eval_bind_ok (eval_state _), hoff, hlike.ropePair_eq, hloop]
  rfl

/-- One layer of a step. -/
theorem layerStep_eval (hd : d.IsSized) (hs : s.Fits d.frame) (hpos : d.pos < d.cfg.seqLen) (hlayer : layer < d.cfg.nLayers)
    (hx : x.Is [d.cfg.dim] xs) (hxs : xs.length = d.cfg.dim) :
    ∃ z, (cpu.layerStep d layer x).eval s =
        (.ok z, s.writeRow d.frame layer
          ((d.net values).layerOut serialValue d.pos (s.past d.frame layer) (d.block layer) xs).2) ∧
      z.Is [d.cfg.dim] ((d.net values).layerOut serialValue d.pos (s.past d.frame layer) (d.block layer) xs).1 := by
  have hshaped := hd.shaped
  -- Projections, rotation, attention, output and feed-forward, each by its own lemma.
  obtain ⟨qT, kT, vT, q, k, v, hproj, hqT, hkT, hvT, hq, hk, hv, hqkv⟩ :=
    queryKeyValue_value values hd hlayer hx hxs
  obtain ⟨query, hquery⟩ : ∃ query, query = interleaved d.frame.pairAngle q := ⟨_, rfl⟩
  obtain ⟨key, hkey⟩ : ∃ key, key = interleaved d.frame.pairAngle k := ⟨_, rfl⟩
  have hlength : query.length = d.cfg.dim := by rw [hquery, length_interleaved, hq]
  have hrow : KeyValue.IsRow d.frame (key, v) := ⟨by rw [hkey, length_interleaved, hk]; rfl, hv⟩
  have hfits := hs.writeRow hlayer hpos (key, v) hrow
  -- The cache now ends with this position's row, so attention sees the past and it.
  obtain ⟨hkeys, hcells⟩ := pastRows_writeRow hs hlayer hpos (key, v) hrow
  have hatt := attend_value values hshaped hlength hfits.keys hfits.values hlayer hpos hd.seqLen hd.memory_dim
  rw [show d.frame.pastRows (s.writeRow d.frame layer (key, v)).keyCache layer (d.pos + 1) = _ from hkeys,
    show d.frame.pastRows (s.writeRow d.frame layer (key, v)).valueCache layer (d.pos + 1) = _ from hcells] at hatt
  obtain ⟨heads, hheads⟩ : ∃ heads, heads = (d.net values).attention serialValue query
    ((s.past d.frame layer).1 ++ [key]) ((s.past d.frame layer).2 ++ [v]) := ⟨_, rfl⟩
  have hwidth : heads.length = d.cfg.dim := hheads ▸ @Net.length_attention F _ serialValue (d.net values) hshaped.dim ..
  obtain ⟨mid, hmid, hisMid⟩ := attnOutput_value values hd hlayer hx hxs hwidth
  obtain ⟨z, hz, hisZ⟩ := feedForward_value values hd hlayer hisMid (Net.length_attnOutput hxs)
  -- The net's layer is put together from the same parts.
  have hout : (d.net values).layerOut serialValue d.pos (s.past d.frame layer) (d.block layer) xs =
      ((d.net values).feedForward (d.block layer) ((d.net values).attnOutput (d.block layer) xs heads), (key, v)) := by
    unfold Net.layerOut
    dsimp only
    rw [hqkv, hheads, hquery, hkey]
  rw [hout]
  refine ⟨z, ?_, hisZ⟩
  unfold CpuArchitecture.layerStep
  rw [hproj, lift_ok, pure_bind]
  dsimp only
  rw [eval_bind_ok (cacheRow_eval hs hlayer hpos hkT hvT hk hv),
    eval_bind_ok (rope_eval hshaped hs hlayer hpos hqT hq hk hv), eval_bind_ok (eval_state _), ← hquery, ← hkey, hatt, lift_ok,
    pure_bind, ← hheads, hmid, lift_ok, pure_bind, hz]
  rfl

theorem layers_eval (hd : d.IsSized) (hpos : d.pos < d.cfg.seqLen) (lo n : Nat) (hlast : lo + n ≤ d.cfg.nLayers)
    (hs : s.Fits d.frame) (hx : x.Is [d.cfg.dim] xs) (hxs : xs.length = d.cfg.dim) :
    ∃ z, (forFrom lo n (cpu.layerStep d) x).eval s =
        (.ok z, s.writeRows d.frame lo
          ((d.net values).layers serialValue d.pos (s.past d.frame) ((List.range' lo n).map d.block) lo xs).2) ∧
      z.Is [d.cfg.dim]
        ((d.net values).layers serialValue d.pos (s.past d.frame) ((List.range' lo n).map d.block) lo xs).1 := by
  induction n generalizing lo s x xs with
  | zero => exact ⟨x, rfl, hx⟩
  | succ n ih =>
    have hlayer : lo < d.cfg.nLayers := by omega
    have hrow : KeyValue.IsRow d.frame
        ((d.net values).layerOut serialValue d.pos (s.past d.frame lo) (d.block lo) xs).2 :=
      ⟨Net.length_key .., Net.length_value ..⟩
    obtain ⟨x', hstep, hx'⟩ := layerStep_eval values hd hs hpos hlayer hx hxs
    obtain ⟨z, hrest, hz⟩ := ih (lo + 1) (by omega) (hs.writeRow hlayer hpos _ hrow) hx'
      (Net.length_layerOut d.pos (s.past d.frame lo) (d.block lo) hxs)
    -- a write at the current position leaves the past alone
    rw [RunState.past_writeRow hs hlayer hpos hrow] at hrest hz
    refine ⟨z, ?_, hz⟩
    rw [forFrom, eval_bind_ok hstep, hrest]
    rfl

theorem embed_value (hd : d.IsSized) {token : UInt32} (htoken : token.toNat < d.cfg.vocabSize) :
    ∃ z, cpu.embed d token = .ok z ∧ z.Is [d.cfg.dim] ((d.net values).embed token) := by
  obtain ⟨z, hz, his⟩ := vector_ok (Net.length_embed (hd.net_sized values) htoken) (lt_wordSize hd.memory_dim)
  refine ⟨z, ?_, his⟩
  unfold CpuArchitecture.embed
  rw [layerSlice_row htoken hd.weights.embedding, ok_bind]
  exact hz

theorem logits_value (hd : d.IsSized) (hx : x.Is [d.cfg.dim] xs)
    (hxs : xs.length = d.cfg.dim) :
    ∃ z, cpu.logits d x = .ok z ∧ z.Is [d.cfg.vocabSize] ((d.net values).logits xs) := by
  have hdim := hd.memory_dim
  -- The classifier is no smaller than its number of rows or its width.
  have hcells : d.cfg.vocabSize * d.cfg.dim * 4 < 2 ^ 63 := by
    rw [← hd.weights.wcls]
    exact hd.memory.wcls
  have hrows := Nat.le_mul_of_pos_right d.cfg.vocabSize hd.dim
  obtain ⟨xb, xb2d, hpre, h2d, his, hlength⟩ := preNorm_value values hd hx hxs hd.weights.rmsFinal
  obtain ⟨y, hy, hisY⟩ := project_ok ⟨hcells, by omega, hdim⟩ his hlength hd.weights.wcls
  obtain ⟨z, hz, hisZ⟩ := squeeze_ok hisY (length_rowProducts ..) (lt_wordSize (by omega))
  refine ⟨z, ?_, hisZ⟩
  unfold CpuArchitecture.logits
  rw [hpre, ok_bind, h2d, ok_bind, hy, ok_bind, hz]

/-- A step of an F32 pass computes its net, and writes the rows of the net. -/
theorem forward_eval (hd : d.IsSized) (hpos : d.pos < d.cfg.seqLen) (hs : s.Fits d.frame) {token : UInt32}
    (htoken : token.toNat < d.cfg.vocabSize) :
    ∃ z, (cpu.forward d token).eval s =
        (.ok z, s.writeRows d.frame 0 ((d.net values).step serialValue d.pos (s.past d.frame) token).2) ∧
      z.Is [d.cfg.vocabSize] ((d.net values).step serialValue d.pos (s.past d.frame) token).1 := by
  obtain ⟨x, hembed, hx⟩ := embed_value values hd htoken
  have hxs := Net.length_embed (hd.net_sized values) htoken
  -- The layers run on the state in turn; each reads only the rows behind this position.
  obtain ⟨x', hlayers, hx'⟩ := layers_eval values hd hpos 0 d.cfg.nLayers (by omega) hs hx hxs
  rw [← List.range_eq_range'] at hlayers hx'
  obtain ⟨z, hlogits, hz⟩ := logits_value values hd hx'
    (Net.length_layers d.pos (s.past d.frame) _ 0 hxs).1
  refine ⟨z, ?_, hz⟩
  unfold CpuArchitecture.forward
  rw [hembed, lift_ok, pure_bind, forRange]
  rw [eval_bind_ok hlayers, hlogits]
  rfl

end Step

end DensePass

end VitniTensor
