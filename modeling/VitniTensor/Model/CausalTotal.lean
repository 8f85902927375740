import VitniTensor.Model.CachedStep
import VitniTensor.Model.Sizes

/-!
# The specification returns

On weights of exact size, every part of the causal transformer returns, for residuals that are
vectors of `dim > 0` numbers.
-/

namespace VitniTensor

open Outcome Rows

variable {F : Type} [F32 F]

/-! ### Vectors -/

/-- A CPU tensor of `n` floats in one dim. -/
structure Tensor.IsVector (n : Nat) (t : Tensor F) : Prop where
  dims : t.shape.dims = [n]
  cpu : t.device = .cpu
  data : ∃ xs, t.storage = .f32 xs ∧ xs.length = n

omit [F32 F] in
theorem isVector_iff {n : Nat} {x : Tensor F} :
    x.IsVector n ↔ ∃ xs, x.Is [n] xs ∧ xs.length = n :=
  ⟨fun h => by
    obtain ⟨xs, hdata, hlength⟩ := h.data
    exact ⟨xs, ⟨h.dims, h.cpu, hdata⟩, hlength⟩,
  fun ⟨xs, h, hlength⟩ => ⟨h.dims, h.cpu, xs, h.data, hlength⟩⟩

/-- The largest count does not saturate. -/
theorem numel_vector {n : Nat} (hn : n < wordSize) (h : [n].length ≤ maxRank) :
    Shape.numel ⟨[n], h⟩ = n := by
  unfold Shape.numel Shape.saturatingMul
  simp only [List.foldl_cons, List.foldl_nil]
  omega

omit [F32 F] in
theorem vectorTensor_ok {data : List F} {n : Nat} (hdata : data.length = n) (hn : n < wordSize) :
    ∃ t, vectorTensor data n = .ok t ∧ t.IsVector n := by
  have hrank : [n].length ≤ maxRank := (by decide : 1 ≤ 6)
  obtain ⟨t, ht⟩ := @Tensor.fromF32_ok F data ⟨[n], hrank⟩ [1] (by rw [hdata, numel_vector hn]) rfl
  obtain ⟨hstorage, hshape, -, hdevice⟩ := Tensor.fromF32_eq_ok ht
  exact ⟨t, ht, by rw [hshape], hdevice, data, hstorage, hdata⟩

omit [F32 F] in
theorem vectorTensor_isVector {data : List F} {n : Nat} (hn : n < wordSize) {t : Tensor F}
    (h : vectorTensor data n = .ok t) : t.IsVector n := by
  obtain ⟨shape, hshape, h⟩ := bind_eq_ok.mp h
  cases hshape
  obtain ⟨hstorage, hshape, -, hdevice⟩ := Tensor.fromF32_eq_ok h
  have hfilled := t.filled
  rw [hstorage, hshape, numel_vector hn] at hfilled
  exact ⟨by rw [hshape], hdevice, data, hstorage, hfilled⟩

namespace Tensor.IsVector

variable {n : Nat} {x y : Tensor F}

omit [F32 F] in
theorem dtype (hx : x.IsVector n) : x.dtype = .f32 := by
  obtain ⟨xs, hstorage, -⟩ := hx.data
  rw [← x.tagged, hstorage]
  rfl

omit [F32 F] in
theorem tensorAsF32 (hx : x.IsVector n) : ∃ xs, tensorAsF32 x = .ok xs ∧ xs.length = n := by
  obtain ⟨xs, hstorage, hlength⟩ := hx.data
  refine ⟨xs, ?_, hlength⟩
  unfold VitniTensor.tensorAsF32
  rw [hstorage]

omit [F32 F] in
theorem fromF32 (hx : x.IsVector n) (data : List F) (hdata : data.length = n) :
    ∃ z, Tensor.fromF32 data x.shape = .ok z ∧ z.IsVector n := by
  obtain ⟨xs, hstorage, hlength⟩ := hx.data
  have hfilled := x.filled
  rw [hstorage] at hfilled
  obtain ⟨z, hz⟩ := Tensor.fromF32_ok (by rw [← hfilled, hdata]; exact hlength.symm)
    x.rowMajor
  obtain ⟨hstorage', hshape, -, hdevice⟩ := Tensor.fromF32_eq_ok hz
  exact ⟨z, hz, by rw [hshape]; exact hx.dims, hdevice, data, hstorage', hdata⟩

theorem add_ok (hx : x.IsVector n) (hy : y.IsVector n) : ∃ z, x.add y = .ok z ∧ z.IsVector n := by
  obtain ⟨xs, hxs, hxlen⟩ := isVector_iff.mp hx
  obtain ⟨ys, hys, hylen⟩ := isVector_iff.mp hy
  obtain ⟨z, hz, his⟩ := hxs.add_ok hys (hylen.trans hxlen.symm)
  refine ⟨z, hz, his.dims, his.cpu, _, his.data, ?_⟩
  rw [List.length_zipWith, hxlen, hylen, Nat.min_self]

end Tensor.IsVector

/-! ### Normalization -/

theorem normalized_ok (p : Pass F) {n : Nat} (hn : 0 < n) {x : Tensor F} (hx : x.IsVector n)
    {ws : List F} (hws : ws.length = n) :
    ∃ xb, Causal.normalized p x ws = .ok xb ∧ xb.length = n := by
  obtain ⟨xs, hstorage, hlength⟩ := hx.data
  obtain ⟨out, hrows, hout⟩ := @rmsRows_ok F _ xs ws p.weights.rmsEps n 1
    (by rw [hlength, Nat.one_mul]) hws
  obtain ⟨z, hz, hvec⟩ := hx.fromF32 out (hout.trans hlength)
  obtain ⟨xb, hxb, hcount⟩ := hvec.tensorAsF32
  have hone : xs.length / n = 1 := by rw [hlength, Nat.div_self hn]
  unfold Causal.normalized rmsNormSlice
  rw [if_neg (not_not_intro hx.dtype), Tensor.isContiguous_eq, ok_bind]
  simp only [Bool.not_true, Bool.false_eq_true, if_false, hx.dims, List.isEmpty_cons,
    List.getLastD_cons, List.getLastD_nil, hws, ne_eq, not_true_eq_false, hstorage, div_of_pos hn,
    ok_bind, hone, hrows, hz]
  exact ⟨xb, hxb, hcount⟩

/-! ### The parts of a layer -/

section Layer

variable {p : Pass F} {blk : QuantLayer F} {x : Tensor F}

theorem rotatedHead_ok (hp : p.WellShaped) {h n : Nat} (hh : h < n) {xs : List F}
    (hxs : xs.length = n * p.headSize) :
    ∃ ys, Causal.rotatedHead p h xs = .ok ys ∧ ys.length = n * p.headSize := by
  have heven := hp.even
  have hend := row_end_le hh hxs
  refine forFrom_ok (fun _ (ys : List F) => ys.length = n * p.headSize) hxs fun j ys _ hj hys => ?_
  unfold Causal.pairOf
  by_cases hneox : p.weights.ropeNeox = true
  · rw [if_pos hneox]
    dsimp only
    rw [rotate_ok (by omega) (by omega)]
    exact ⟨_, rfl, by rw [List.length_set, List.length_set, hys]⟩
  · rw [if_neg hneox]
    dsimp only
    rw [rotate_ok (by omega) (by omega)]
    exact ⟨_, rfl, by rw [List.length_set, List.length_set, hys]⟩

theorem rotated_ok (hp : p.WellShaped) (n : Nat) (xs : List F) (hxs : xs.length = n * p.headSize) :
    ∃ ys, Causal.rotated p n xs = .ok ys ∧ ys.length = n * p.headSize :=
  forFrom_ok (fun _ (ys : List F) => ys.length = n * p.headSize) hxs fun _ _ _ hh hys =>
    rotatedHead_ok hp (by omega) hys

theorem queryKeyValue_ok (hp : p.WellShaped) (hdim : 0 < p.cfg.dim) (hblk : blk.Sized p.cfg p.headSize)
    (hx : x.IsVector p.cfg.dim) :
    ∃ q k v, Causal.queryKeyValue p blk x = .ok (q, k, v) ∧ q.length = p.cfg.dim ∧
      k.length = p.kvDim ∧ v.length = p.kvDim := by
  obtain ⟨xb, hxb, hlength⟩ := normalized_ok p hdim hx hblk.rmsAtt
  obtain ⟨q, hq, hqlen⟩ := linearDispatch_ok p.build hblk.wq hlength p.regime
  obtain ⟨k, hk, hklen⟩ := linearDispatch_ok p.build hblk.wk hlength p.regime
  obtain ⟨v, hv, hvlen⟩ := linearDispatch_ok p.build hblk.wv hlength p.regime
  obtain ⟨q', hq', hqlen'⟩ := rotated_ok hp p.cfg.nHeads (addBias q blk.bq)
    (by rw [length_addBias, hqlen])
  obtain ⟨k', hk', hklen'⟩ := rotated_ok hp p.cfg.nKvHeads (addBias k blk.bk)
    (by rw [length_addBias, hklen])
  refine ⟨q', k', addBias v blk.bv, ?_, ?_, ?_, ?_⟩
  · unfold Causal.queryKeyValue Causal.linear
    rw [hxb, ok_bind, hq, ok_bind, hp.kvDim, hk, ok_bind, hv, ok_bind, hq', ok_bind, hk', ok_bind]
    rfl
  · rw [hqlen', hp.dim]
  · rw [hklen', hp.kvDim]
  · rw [length_addBias, hvlen, hp.kvDim]

theorem swiGlu_ok {gate up : List F} {n : Nat} (hgate : gate.length = n) (hup : up.length = n) :
    ∃ out, swiGlu gate up n = .ok out ∧ out.length = n := by
  refine collectRange_ok fun i hi => ?_
  rw [index_of_lt (by omega), ok_bind]
  dsimp only
  rw [index_of_lt (by omega), ok_bind]
  exact ⟨_, rfl⟩

theorem block_ok (hp : p.WellShaped) (hdim : 0 < p.cfg.dim) (hblk : blk.Sized p.cfg p.headSize)
    (hx : x.IsVector p.cfg.dim) {q : List F} (hq : q.length = p.cfg.dim) {keys values : List (List F)}
    (hkeys : Causal.AreRows p keys) (hvalues : Causal.AreRows p values)
    (hboth : keys.length = values.length) :
    ∃ x', Causal.block p blk x q keys values = .ok x' ∧ x'.IsVector p.cfg.dim := by
  obtain ⟨heads, hattention, hcount, heach⟩ := Causal.attention_ok hp hq hkeys hvalues hboth
  have hheads : heads.flatten.length = p.cfg.dim := by
    have hwidth : ∀ head ∈ heads, head.length = p.headSize := by
      intro head hmem
      obtain ⟨h, hat⟩ := List.getElem?_of_mem hmem
      exact (heach h head hat).2
    rw [List.length_flatten, List.map_congr_left hwidth, List.map_const', List.sum_replicate_nat, hcount,
      hp.dim]
  obtain ⟨out, hout, holen⟩ := linearDispatch_ok p.build hblk.wo hheads p.regime
  obtain ⟨outT, houtT, houtV⟩ := vectorTensor_ok holen hp.fits
  obtain ⟨mid, hmid, hmidV⟩ := hx.add_ok houtV
  obtain ⟨xb, hxb, hxlen⟩ := normalized_ok p hdim hmidV hblk.rmsFfn
  obtain ⟨gate, hgate, hglen⟩ := linearDispatch_ok p.build hblk.w1 hxlen p.regime
  obtain ⟨up, hup, hulen⟩ := linearDispatch_ok p.build hblk.w3 hxlen p.regime
  obtain ⟨inner, hinner, hilen⟩ := swiGlu_ok hglen hulen
  obtain ⟨down, hdown, hdlen⟩ := linearDispatch_ok p.build hblk.w2 hilen p.regime
  obtain ⟨downT, hdownT, hdownV⟩ := vectorTensor_ok hdlen hp.fits
  obtain ⟨last, hlast, hlastV⟩ := hmidV.add_ok hdownV
  refine ⟨last, ?_, hlastV⟩
  unfold Causal.block Causal.linear
  rw [hattention, ok_bind, hout, ok_bind, houtT, ok_bind, hmid, ok_bind, hxb, ok_bind, hgate, ok_bind,
    hup, ok_bind, hinner, ok_bind, hdown, ok_bind, hdownT, ok_bind, hlast]

/-- The head of the model returns logits for every vocabulary that fits in memory. -/
theorem logits_ok (hdim : 0 < p.cfg.dim) (hw : p.weights.Sized p.cfg p.headSize)
    (hx : x.IsVector p.cfg.dim) : ∃ y, Causal.logits p x = .ok y ∧ y.IsVector p.cfg.vocabSize := by
  obtain ⟨xb, hxb, hlength⟩ := normalized_ok p hdim hx hw.rmsFinal
  have hhead : p.lmHead.1.Holds p.cfg.dim p.cfg.vocabSize := by
    unfold Pass.lmHead
    cases hwcls : p.weights.wcls with
    | none => exact hw.tied hwcls
    | some t => exact hw.wcls t hwcls
  obtain ⟨y, hy, hylen⟩ := linearDispatch_ok p.build hhead hlength p.regime
  obtain ⟨t, ht, htV⟩ := vectorTensor_ok hylen (lt_wordSize hhead.features.2)
  refine ⟨t, ?_, htV⟩
  unfold Causal.logits Causal.linear
  rw [hxb, ok_bind, hy, ok_bind, ht]

end Layer

end VitniTensor
