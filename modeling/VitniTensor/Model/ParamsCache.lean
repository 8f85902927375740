import Mathlib.Data.List.Nodup
import VitniTensor.Model.Trace

/-!
# Hashes of parameters

A recorder hashes the weights once, under keys that it builds itself. The keys that a step looks up
are built elsewhere; each of them is there, and holds the hash of the weight that the step uses.
-/

namespace VitniTensor

variable {F : Type} [F32 F]

/-! ### Keys -/

theorem slash_notMem_digits (n : Nat) : '/' ∉ Nat.toDigits 10 n := by
  intro h
  have hdigit := Nat.isDigit_of_mem_toDigits (by decide) (by decide) h
  exact absurd hdigit (by decide)

theorem toDigits_injective {m n : Nat} (h : Nat.toDigits 10 m = Nat.toDigits 10 n) : m = n := by
  rw [← @Nat.ofDigitChars_ten_toDigits m, h, Nat.ofDigitChars_ten_toDigits]

theorem toList_paramsKey (part : String) (l : Nat) :
    (PerOpRecorder.paramsKey part l).toList = part.toList ++ '/' :: Nat.toDigits 10 l := by
  unfold PerOpRecorder.paramsKey
  rw [String.toList_append, String.toList_append, List.append_assoc, ← Nat.toList_repr]
  rfl

/-- A part without a slash and a layer can be read off their key. -/
theorem paramsKey_inj {part part' : String} {l l' : Nat} (hpart : '/' ∉ part.toList)
    (h : PerOpRecorder.paramsKey part l = PerOpRecorder.paramsKey part' l') : part = part' ∧ l = l' := by
  have hlist := congrArg String.toList h
  rw [toList_paramsKey, toList_paramsKey] at hlist
  obtain ⟨hparts, -, hdigits⟩ := (List.append_cons_inj_of_notMem hpart (slash_notMem_digits l)).mp hlist
  exact ⟨String.toList_inj.mp hparts, toDigits_injective hdigits⟩

theorem paramsKey_ne {key part : String} {l : Nat} (hkey : '/' ∉ key.toList) :
    PerOpRecorder.paramsKey part l ≠ key := by
  intro h
  apply hkey
  rw [← h, toList_paramsKey]
  exact List.mem_append_right _ List.mem_cons_self

/-! ### The cache as a list of insertions -/

/-- Inserting pairs that agree on a key leaves their value there. -/
theorem getElem?_insertAll {V : Type} {key : String} {value : V} {pairs : List (String × V)}
    (agree : ∀ v, (key, v) ∈ pairs → v = value) {map : BTreeMap V}
    (h : (key, value) ∈ pairs ∨ map[key]? = some value) :
    (pairs.foldl (fun map e => map.insert e.1 e.2) map)[key]? = some value := by
  induction pairs generalizing map with
  | nil =>
    rcases h with h | h
    · cases h
    · exact h
  | cons e pairs ih =>
    rw [List.foldl_cons]
    apply ih (fun v hv => agree v (List.mem_cons_of_mem e hv))
    rw [Std.TreeMap.getElem?_insert]
    by_cases same : e.1 = key
    · right
      rw [if_pos (by rw [same]; exact Std.ReflCmp.compare_self)]
      exact congrArg some (agree e.2 (by rw [← same]; exact List.mem_cons_self))
    · rw [if_neg (by rwa [Std.LawfulEqCmp.compare_eq_iff_eq])]
      rcases h with h | h
      · left
        rcases List.mem_cons.mp h with rfl | h
        · exact absurd rfl same
        · exact h
      · right
        exact h

namespace PerOpRecorder

/-- The parameters of a layer by the first part of their key. -/
def layerParts (blake3 : Blake3) : List (String × (QuantLayer F → Hash)) :=
  [("rms_att", fun blk => hashF32Slice blake3 blk.rmsAttWeight), ("wq", fun blk => blake3 blk.wq.bytes),
    ("wk", fun blk => blake3 blk.wk.bytes), ("wv", fun blk => blake3 blk.wv.bytes),
    ("wo", fun blk => blake3 blk.wo.bytes), ("rms_ffn", fun blk => hashF32Slice blake3 blk.rmsFfnWeight),
    ("w1", fun blk => blake3 blk.w1.bytes), ("w2", fun blk => blake3 blk.w2.bytes),
    ("w3", fun blk => blake3 blk.w3.bytes)]

def layerHashes (blake3 : Blake3) (l : Nat) (blk : QuantLayer F) : List (String × Hash) :=
  (layerParts blake3).map fun e => (paramsKey e.1 l, e.2 blk)

/-- The parameters that belong to no layer. -/
def wholeHashes (blake3 : Blake3) (weights : QuantizedWeights F) : List (String × Hash) :=
  [("token_embd", blake3 weights.tokenEmbeddingTable.bytes),
    ("rms_final", hashF32Slice blake3 weights.rmsFinalWeight)] ++
    match weights.wcls with
    | some wcls => [("wcls", blake3 wcls.bytes)]
    | none => []

def paramsHashes (blake3 : Blake3) (weights : QuantizedWeights F) : List (String × Hash) :=
  wholeHashes blake3 weights ++ weights.layers.zipIdx.flatMap fun blk => layerHashes blake3 blk.2 blk.1

theorem paramsCache_new (blake3 : Blake3) (builder : CertBuilder) (weights : QuantizedWeights F) :
    (new blake3 builder weights).paramsCache =
      (paramsHashes blake3 weights).foldl (fun map e => map.insert e.1 e.2) ∅ := by
  unfold new paramsHashes wholeHashes
  rw [List.foldl_append, List.foldl_flatMap]
  cases weights.wcls <;> rfl

/-! ### No key has two values -/

theorem slash_notMem_part (blake3 : Blake3) {e : String × (QuantLayer F → Hash)} (he : e ∈ layerParts blake3) :
    '/' ∉ e.1.toList := by
  have hall : ∀ part ∈ (layerParts (F := F) blake3).map Prod.fst, '/' ∉ part.toList := by
    show ∀ part ∈ ["rms_att", "wq", "wk", "wv", "wo", "rms_ffn", "w1", "w2", "w3"], '/' ∉ part.toList
    decide
  exact hall e.1 (List.mem_map_of_mem he)

theorem layerParts_inj (blake3 : Blake3) {e e' : String × (QuantLayer F → Hash)} (he : e ∈ layerParts blake3)
    (he' : e' ∈ layerParts blake3) (h : e.1 = e'.1) : e = e' := by
  have hnodup : ((layerParts (F := F) blake3).map Prod.fst).Nodup := by
    show ["rms_att", "wq", "wk", "wv", "wo", "rms_ffn", "w1", "w2", "w3"].Nodup
    decide
  exact List.inj_on_of_nodup_map hnodup he he' h

theorem wholeHashes_key {blake3 : Blake3} {weights : QuantizedWeights F} {e : String × Hash}
    (he : e ∈ wholeHashes blake3 weights) : e.1 ∈ ["token_embd", "rms_final", "wcls"] := by
  unfold wholeHashes at he
  rcases List.mem_append.mp he with he | he
  · rcases List.mem_cons.mp he with rfl | he
    · exact List.mem_cons_self
    · rw [List.mem_singleton.mp he]
      exact List.mem_cons_of_mem _ List.mem_cons_self
  · cases hcls : weights.wcls with
    | none =>
      rw [hcls] at he
      cases he
    | some wcls =>
      rw [hcls] at he
      rw [List.mem_singleton.mp he]
      exact List.mem_cons_of_mem _ (List.mem_cons_of_mem _ List.mem_cons_self)

theorem slash_notMem_whole {blake3 : Blake3} {weights : QuantizedWeights F} {e : String × Hash}
    (he : e ∈ wholeHashes blake3 weights) : '/' ∉ e.1.toList :=
  (by decide : ∀ key ∈ ["token_embd", "rms_final", "wcls"], '/' ∉ key.toList) e.1 (wholeHashes_key he)

theorem wholeHashes_inj {blake3 : Blake3} {weights : QuantizedWeights F} {key : String} {v v' : Hash}
    (h : (key, v) ∈ wholeHashes blake3 weights) (h' : (key, v') ∈ wholeHashes blake3 weights) : v = v' := by
  have hnodup : ((wholeHashes blake3 weights).map Prod.fst).Nodup := by
    unfold wholeHashes
    cases weights.wcls with
    | none => exact (by decide : ["token_embd", "rms_final"].Nodup)
    | some wcls => exact (by decide : ["token_embd", "rms_final", "wcls"].Nodup)
  exact congrArg Prod.snd (List.inj_on_of_nodup_map hnodup h h' rfl)

theorem mem_layerHashes {blake3 : Blake3} {weights : QuantizedWeights F} {key : String} {v : Hash} :
    (key, v) ∈ (weights.layers.zipIdx.flatMap fun blk => layerHashes blake3 blk.2 blk.1) ↔
      ∃ l blk e, weights.layers[l]? = some blk ∧ e ∈ layerParts blake3 ∧ key = paramsKey e.1 l ∧ v = e.2 blk := by
  constructor
  · intro h
    obtain ⟨⟨blk, l⟩, hblk, h⟩ := List.mem_flatMap.mp h
    obtain ⟨e, he, heq⟩ := List.mem_map.mp h
    cases heq
    exact ⟨l, blk, e, List.mem_zipIdx_iff_getElem?.mp hblk, he, rfl, rfl⟩
  · rintro ⟨l, blk, e, hblk, he, rfl, rfl⟩
    exact List.mem_flatMap.mpr ⟨(blk, l), List.mem_zipIdx_iff_getElem?.mpr hblk, List.mem_map_of_mem he⟩

theorem paramsHashes_inj {blake3 : Blake3} {weights : QuantizedWeights F} {key : String} {v v' : Hash}
    (h : (key, v) ∈ paramsHashes blake3 weights) (h' : (key, v') ∈ paramsHashes blake3 weights) : v' = v := by
  rcases List.mem_append.mp h with h | h <;> rcases List.mem_append.mp h' with h' | h'
  · exact wholeHashes_inj h' h
  · obtain ⟨l, blk, e, -, -, hkey, -⟩ := mem_layerHashes.mp h'
    exact absurd hkey.symm (paramsKey_ne (slash_notMem_whole h))
  · obtain ⟨l, blk, e, -, -, hkey, -⟩ := mem_layerHashes.mp h
    exact absurd hkey.symm (paramsKey_ne (slash_notMem_whole h'))
  · obtain ⟨l, blk, e, hblk, he, rfl, rfl⟩ := mem_layerHashes.mp h
    obtain ⟨l', blk', e', hblk', he', hkey, rfl⟩ := mem_layerHashes.mp h'
    obtain ⟨hpart, rfl⟩ := paramsKey_inj (slash_notMem_part blake3 he) hkey
    rw [layerParts_inj blake3 he he' hpart]
    rw [hblk] at hblk'
    cases hblk'
    rfl

/-! ### Every key of a step is there -/

theorem mem_paramsHashes {blake3 : Blake3} {weights : QuantizedWeights F} {use : OpUse F}
    (h : use ∈ stepUses weights) : (use.paramsKey, use.weight.hash blake3) ∈ paramsHashes blake3 weights := by
  rcases List.mem_append.mp h with h | h
  · apply List.mem_append_right
    obtain ⟨⟨blk, l⟩, hblk, h⟩ := List.mem_flatMap.mp h
    refine List.mem_flatMap.mpr ⟨(blk, l), hblk, ?_⟩
    simp only [layerUses, List.mem_cons, List.not_mem_nil, or_false] at h
    simp only [layerHashes, layerParts, List.map_cons, List.map_nil, List.mem_cons, List.not_mem_nil, or_false]
    rcases h with rfl | rfl | rfl | rfl | rfl | rfl | rfl | rfl | rfl <;>
      simp [OpUse.rmsNorm, OpUse.linear, Weight.hash]
  · apply List.mem_append_left
    unfold headUses at h
    unfold wholeHashes
    rcases List.mem_cons.mp h with rfl | h
    · simp [OpUse.rmsNorm, Weight.hash]
    · cases hcls : weights.wcls with
      | none =>
        rw [hcls] at h
        rw [List.mem_singleton.mp h]
        simp [OpUse.linear, Weight.hash]
      | some wcls =>
        rw [hcls] at h
        rw [List.mem_singleton.mp h]
        simp [OpUse.linear, Weight.hash]

/-- The empty key, which stands for no parameters, is not used. -/
theorem paramsKey_isEmpty {weights : QuantizedWeights F} {use : OpUse F} (h : use ∈ stepUses weights) :
    use.paramsKey.isEmpty = false := by
  have hne : use.paramsKey ≠ "" := by
    rcases List.mem_append.mp (@mem_paramsHashes F _ (fun _ => Vector.replicate 32 0) _ _ h) with hmem | hmem
    · exact (by decide : ∀ key ∈ ["token_embd", "rms_final", "wcls"], key ≠ "") _ (wholeHashes_key hmem)
    · obtain ⟨l, blk, e, -, -, hkey, -⟩ := mem_layerHashes.mp hmem
      rw [hkey]
      exact paramsKey_ne (by decide)
  rwa [← Bool.not_eq_true, String.isEmpty_iff]

/-- A recorder finds the hash of the weight that the step uses, and not its fallback. -/
theorem paramsCache_eq (blake3 : Blake3) (builder : CertBuilder) {weights : QuantizedWeights F} {use : OpUse F}
    (h : use ∈ stepUses weights) :
    (new blake3 builder weights).paramsCache[use.paramsKey]? = some (use.weight.hash blake3) := by
  rw [paramsCache_new]
  have hmem := @mem_paramsHashes F _ blake3 _ _ h
  exact getElem?_insertAll (fun v hv => paramsHashes_inj hmem hv) (.inl hmem)

end PerOpRecorder

end VitniTensor
