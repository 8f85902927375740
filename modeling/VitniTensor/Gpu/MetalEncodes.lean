import VitniTensor.Gpu.Metal

/-!
# Steps that the Metal host encodes

The host encodes a step exactly if it can allocate the tables of the rotation, looks the token up,
finds as many layers as it counts, none with a bias unwrapped in vain, and divides by no empty head.
-/

namespace VitniTensor

open Outcome

variable {F : Type}

namespace Metal

/-- The first bias is bound together with the others. -/
def Layer.BiasesBound (l : Layer F) : Prop :=
  l.bq.isSome → l.bk.isSome ∧ l.bv.isSome

end Metal

namespace MetalForward

open Metal

/-- The host gets through the layers. -/
structure Encodes (mf : MetalForward F) : Prop where
  layers : mf.nLayers ≤ mf.layers.length
  heads : 0 < mf.nLayers → 0 < mf.headSize
  biases : ∀ l ∈ mf.layers.take mf.nLayers, l.BiasesBound

variable {mf : MetalForward F}

theorem mem_layers {l : Layer F} :
    l ∈ mf.layers.take mf.nLayers ↔ ∃ i < mf.nLayers, mf.layers[i]? = some l := by
  rw [List.mem_iff_getElem?]
  refine exists_congr fun i => ?_
  rw [List.getElem?_take]
  split
  next hi => exact (and_iff_right hi).symm
  next hi => exact iff_of_false (fun h => nomatch h) (fun h => hi h.1)

theorem addBiases_ok {layer koff : Nat} {l : Layer F} :
    (∃ biases, mf.addBiases layer koff l = .ok biases) ↔ l.BiasesBound := by
  unfold addBiases Layer.BiasesBound
  cases l.bq <;> cases l.bk <;> cases l.bv <;> simp [unwrap, pure, Except.pure]

/-- A layer is encoded when it is there, its heads are not empty and its biases are bound. -/
theorem layerCommands_ok {pos koff layer : Nat} :
    (∃ cmds, mf.layerCommands pos koff layer = .ok cmds) ↔
      ∃ l, mf.layers[layer]? = some l ∧ 0 < mf.headSize ∧ l.BiasesBound := by
  constructor
  · rintro ⟨cmds, h⟩
    obtain ⟨l, hl, h⟩ := bind_eq_ok.mp h
    obtain ⟨attention, hattention, -⟩ := bind_eq_ok.mp h
    obtain ⟨biases, hbiases, hattention⟩ := bind_eq_ok.mp hattention
    obtain ⟨nKv, hnKv, -⟩ := bind_eq_ok.mp hattention
    exact ⟨l, index_eq_ok.mp hl, (div_eq_ok.mp hnKv).1, addBiases_ok.mp ⟨biases, hbiases⟩⟩
  · rintro ⟨l, hl, hsize, hbound⟩
    obtain ⟨biases, hbiases⟩ := (@addBiases_ok F mf layer koff l).mpr hbound
    unfold layerCommands attentionCommands
    rw [index_eq_ok.mpr hl, ok_bind, hbiases, ok_bind, div_of_pos hsize, ok_bind]
    exact ⟨_, rfl⟩

/-- When the command buffer of a step gets encoded. -/
theorem commands_ok {pos : Nat} :
    (∃ cmds, mf.commands pos = .ok cmds) ↔ pos * mf.kvDim * 4 < wordSize ∧ mf.Encodes := by
  constructor
  · rintro ⟨cmds, h⟩
    obtain ⟨row, hrow, h⟩ := bind_eq_ok.mp h
    obtain ⟨koff, hkoff, h⟩ := bind_eq_ok.mp h
    obtain ⟨body, hbody, -⟩ := bind_eq_ok.mp h
    obtain ⟨-, rfl⟩ := word_eq_ok.mp hrow
    obtain ⟨hoffset, rfl⟩ := word_eq_ok.mp hkoff
    have hlayer := fun i hi => layerCommands_ok.mp (forRange_append_ok.mp ⟨body, hbody⟩ i hi)
    refine ⟨hoffset, ?_, fun hsome => ?_, fun l hl => ?_⟩
    · by_contra hmissing
      obtain ⟨l, hl, -⟩ := hlayer mf.layers.length (by omega)
      rw [List.getElem?_eq_none (Nat.le_refl _)] at hl
      cases hl
    · obtain ⟨l, -, hsize, -⟩ := hlayer 0 hsome
      exact hsize
    · obtain ⟨i, hi, hget⟩ := mem_layers.mp hl
      obtain ⟨l', hl', -, hbound⟩ := hlayer i hi
      rw [hget] at hl'
      cases hl'
      exact hbound
  · rintro ⟨hoffset, hencodes⟩
    have hbody : ∃ body, forRange mf.nLayers (fun layer e => do
        let cmds ← mf.layerCommands pos (pos * mf.kvDim * 4) layer
        pure (e ++ cmds)) [] = .ok body := by
      refine forRange_append_ok.mpr fun i hi => layerCommands_ok.mpr ?_
      have hget := List.getElem?_eq_getElem (Nat.lt_of_lt_of_le hi hencodes.layers)
      exact ⟨_, hget, hencodes.heads (Nat.zero_lt_of_lt hi), hencodes.biases _ (mem_layers.mpr ⟨i, hi, hget⟩)⟩
    obtain ⟨body, hbody⟩ := hbody
    have hrow : (word (pos * mf.kvDim) : Res Nat) = .ok (pos * mf.kvDim) :=
      word_of_lt (Nat.lt_of_le_of_lt (Nat.le_mul_of_pos_right _ (by decide)) hoffset)
    unfold commands
    rw [hrow, ok_bind, word_of_lt hoffset, ok_bind, hbody]
    exact ⟨_, rfl⟩

/-- The caches that `new` allocates hold every row of the context. -/
theorem new_offset {cfg : Config} {w : QuantizedWeights F} (h : new cfg w = .ok mf) (hsome : 0 < mf.nLayers)
    {pos : Nat} (hpos : pos < cfg.seqLen) : pos * mf.kvDim * 4 < wordSize := by
  obtain ⟨kvDim, -, h⟩ := bind_eq_ok.mp h
  obtain ⟨headSize, -, h⟩ := bind_eq_ok.mp h
  obtain ⟨qOut, -, h⟩ := bind_eq_ok.mp h
  obtain ⟨kvMul, -, h⟩ := bind_eq_ok.mp h
  obtain ⟨keys, hkeys, h⟩ := bind_eq_ok.mp h
  obtain ⟨values, -, h⟩ := bind_eq_ok.mp h
  obtain ⟨-, -, h⟩ := bind_eq_ok.mp h
  cases h
  obtain ⟨hlength, hcell⟩ := collectFrom_eq_ok hkeys
  have hfirst := hcell 0 _ (List.getElem?_eq_getElem (hlength.symm ▸ hsome))
  obtain ⟨n, hn, hfirst⟩ := bind_eq_ok.mp hfirst
  obtain ⟨bytes, hbytes, -⟩ := bind_eq_ok.mp hfirst
  obtain ⟨-, rfl⟩ := word_eq_ok.mp hn
  exact Nat.lt_of_le_of_lt (Nat.mul_le_mul_right 4 (Nat.mul_le_mul_right kvDim (Nat.le_of_lt hpos)))
    (word_eq_ok.mp hbytes).1

/-- When a step is handed to the device. -/
theorem step_ok [F32 F] {token : UInt32} {pos : Nat} {sub : Submission F} :
    mf.step token pos = .ok sub ↔ mf.ropeCache pos = .ok (sub.cos, sub.sin) ∧ mf.embedRow token.toNat = .ok sub.row ∧
      mf.commands pos = .ok sub.commands := by
  unfold step
  constructor
  · intro h
    obtain ⟨tables, htables, h⟩ := bind_eq_ok.mp h
    obtain ⟨row, hrow, h⟩ := bind_eq_ok.mp h
    obtain ⟨cmds, hcmds, h⟩ := bind_eq_ok.mp h
    cases h
    exact ⟨htables, hrow, hcmds⟩
  · rintro ⟨htables, hrow, hcmds⟩
    rw [htables, ok_bind]
    dsimp only
    rw [hrow, ok_bind, hcmds]
    rfl

end MetalForward

end VitniTensor
