import VitniTensor.Gguf.Loaded
import VitniTensor.Model.Llama2cLayout
import Mathlib.Algebra.Order.BigOperators.Group.List
import Mathlib.Data.List.Nodup

/-!
# Models as files

A model written as a GGUF file: its numbers under the keys of the architecture, its tensors one after the other under
their names. The three loaders read the same model back.
-/

namespace VitniTensor

open Outcome Exec QuantizedWeights

/-! ### The model of a file -/

/-- A tensor as a file has it. -/
structure Stored where
  shape : List UInt64
  dtype : GgufTensorType
  bytes : List UInt8
  deriving DecidableEq

structure Stored.WellFormed (s : Stored) : Prop where
  rank : s.shape.length ≤ 8
  dims : ∀ k ≤ s.shape.length, numelOf (s.shape.take k) < 2 ^ 64
  bytes : ∃ per size, s.dtype.block = some (per, size) ∧ numelOf s.shape % per = 0 ∧
    s.bytes.length = numelOf s.shape / per * size

/-- A vector of floats, by their bits. -/
def Stored.vector (bits : List UInt32) : Stored :=
  ⟨[UInt64.ofNat bits.length], .f32, writeFloats bits⟩

/-- Vectors are given by the bits of their floats. -/
structure StoredLayer where
  attnNorm : List UInt32
  attnQ : Stored
  attnK : Stored
  attnV : Stored
  attnOutput : Stored
  ffnNorm : List UInt32
  ffnGate : Stored
  ffnDown : Stored
  ffnUp : Stored
  biasQ : Option (List UInt32)
  biasK : Option (List UInt32)
  biasV : Option (List UInt32)

structure StoredModel where
  arch : String
  dim : UInt32
  hiddenDim : UInt32
  nHeads : UInt32
  nKvHeads : UInt32
  vocabSize : UInt32
  seqLen : UInt32
  /-- Bits of floats. -/
  freqBase : UInt32
  rmsEps : UInt32
  embedding : Stored
  outputNorm : List UInt32
  output : Option Stored
  layers : List StoredLayer

/-- An optional tensor under its name. -/
def optional (name : String) (s : Option Stored) : List (String × Stored) :=
  (s.map fun s => (name, s)).toList

def StoredLayer.parts (layer : StoredLayer) : List (String × Stored) :=
  [("attn_norm.weight", .vector layer.attnNorm), ("attn_q.weight", layer.attnQ), ("attn_k.weight", layer.attnK),
    ("attn_v.weight", layer.attnV), ("attn_output.weight", layer.attnOutput), ("ffn_norm.weight", .vector layer.ffnNorm),
    ("ffn_gate.weight", layer.ffnGate), ("ffn_down.weight", layer.ffnDown), ("ffn_up.weight", layer.ffnUp)] ++
    (optional "attn_q.bias" (layer.biasQ.map .vector) ++ (optional "attn_k.bias" (layer.biasK.map .vector) ++
      optional "attn_v.bias" (layer.biasV.map .vector)))

namespace StoredModel

variable (m : StoredModel)

/-- The names of a layer's tensors. -/
def layerTensors (e : StoredLayer × Nat) : List (String × Stored) :=
  e.1.parts.map fun part => (layerKey e.2 part.1, part.2)

/-- All tensors, under their names. -/
def tensors : List (String × Stored) :=
  ("token_embd.weight", m.embedding) :: ("output_norm.weight", .vector m.outputNorm) ::
    (optional "output.weight" m.output ++ m.layers.zipIdx.flatMap layerTensors)

/-- The numbers, behind the name of the architecture. -/
def numbers : List (String × GgufValue) :=
  [("embedding_length", .u32 m.dim), ("feed_forward_length", .u32 m.hiddenDim),
    ("block_count", .u32 (UInt32.ofNat m.layers.length)), ("attention.head_count", .u32 m.nHeads),
    ("attention.head_count_kv", .u32 m.nKvHeads), ("context_length", .u32 m.seqLen), ("vocab_size", .u32 m.vocabSize),
    ("rope.freq_base", .f32 m.freqBase), ("attention.layer_norm_rms_epsilon", .f32 m.rmsEps)]

def key (suffix : String) : String :=
  m.arch ++ "." ++ suffix

def entries : List (String × GgufValue) :=
  ("general.architecture", .string m.arch) :: m.numbers.map fun e => (m.key e.1, e.2)

/-- The padding behind a tensor. -/
def padding (s : Stored) : List UInt8 :=
  List.replicate ((s.bytes.length + 31) / 32 * 32 - s.bytes.length) 0

def dataOf (tensors : List (String × Stored)) : List UInt8 :=
  tensors.flatMap fun e => e.2.bytes ++ padding e.2

/-- The tensors one after the other. -/
def infosFrom : Nat → List (String × Stored) → List TensorInfo
  | _, [] => []
  | offset, e :: tensors =>
    ⟨e.1, e.2.shape, e.2.dtype, UInt64.ofNat offset⟩ ::
      infosFrom (offset + (e.2.bytes ++ padding e.2).length) tensors

def gguf : GgufModel where
  version := 3
  entries := m.entries
  infos := infosFrom 0 m.tensors
  data := dataOf m.tensors

structure WellFormed : Prop where
  layers : m.layers.length < 2 ^ 32
  tensors : ∀ e ∈ m.tensors, ShortString e.1 ∧ e.2.WellFormed
  keys : ShortString m.arch ∧ ∀ e ∈ m.numbers, ShortString (m.key e.1)
  /-- A file is a slice in memory. -/
  size : m.gguf.write.length < 2 ^ 63

/-! ### The layout -/

/-- What a tensor is when it is loaded. -/
def loaded (e : String × Stored) : GgufTensor :=
  ⟨e.1, e.2.shape, e.2.dtype, e.2.bytes⟩

theorem nbytes_eq {s : Stored} (hs : s.WellFormed) (name : String) (offset : UInt64) :
    TensorInfo.nbytes ⟨name, s.shape, s.dtype, offset⟩ = s.bytes.length := by
  obtain ⟨per, size, hblock, -, hlength⟩ := hs.bytes
  unfold TensorInfo.nbytes
  simp only [hblock, hlength]

/-- Every tensor lies where its info says. -/
theorem infosFrom_spec {tensors : List (String × Stored)} (htensors : ∀ e ∈ tensors, ShortString e.1 ∧ e.2.WellFormed)
    (front : List UInt8) (hsize : (front ++ dataOf tensors).length < 2 ^ 63) :
    (∀ info ∈ infosFrom front.length tensors, info.WellFormed (front ++ dataOf tensors) ∧
        ∀ k ≤ info.shape.length, numelOf (info.shape.take k) < 2 ^ 64) ∧
      (infosFrom front.length tensors).map (fun info => (⟨info.name, info.shape, info.dtype,
        ((front ++ dataOf tensors).drop info.offset.toNat).take info.nbytes⟩ : GgufTensor)) = tensors.map loaded := by
  -- Induction on the tensors, `front` being the data section up to the first of them.
  induction tensors generalizing front with
  | nil => exact ⟨fun info hmem => absurd hmem List.not_mem_nil, rfl⟩
  | cons e tensors ih =>
    obtain ⟨⟨hname, hs⟩, hrest⟩ := List.forall_mem_cons.mp htensors
    -- The first tensor and its padding become part of the front of the rest.
    have hdata : front ++ dataOf (e :: tensors) = (front ++ (e.2.bytes ++ padding e.2)) ++ dataOf tensors := by
      rw [dataOf, List.flatMap_cons, ← List.append_assoc]
      rfl
    have hnext : front.length + (e.2.bytes ++ padding e.2).length = (front ++ (e.2.bytes ++ padding e.2)).length :=
      List.length_append.symm
    have hlength := congrArg List.length hdata
    simp only [List.length_append] at hlength hsize
    -- Offsets fit a word, since the whole section does.
    have hoffset : (UInt64.ofNat front.length).toNat = front.length := UInt64.toNat_ofNat_of_lt' (by
      simp only [UInt64.size]
      omega)
    obtain ⟨hinfos, hmap⟩ := ih hrest (front ++ (e.2.bytes ++ padding e.2)) (by
      rw [← hdata, List.length_append]
      omega)
    rw [infosFrom, hnext, hdata]
    -- Well-formedness of the first tensor, then the bytes its range cuts out.
    refine ⟨List.forall_mem_cons.mpr ⟨⟨⟨hname, hs.rank, ?_, ?_⟩, hs.dims⟩, hinfos⟩, ?_⟩
    · obtain ⟨per, size, hblock, hwhole, -⟩ := hs.bytes
      exact ⟨per, size, hblock, hwhole⟩
    · simp only [nbytes_eq hs, hoffset, List.length_append]
      omega
    · rw [List.map_cons, List.map_cons, hmap]
      simp only [nbytes_eq hs, hoffset, List.append_assoc, List.drop_left, List.take_left]
      rfl

/-! ### Metadata -/

/-- A key of a number is none of the fixed keys: it ends differently. -/
theorem key_ne {suffix name : String} (hlong : 3 ≤ suffix.toList.length)
    (h : suffix.toList.reverse.take 3 ≠ name.toList.reverse.take 3) : m.key suffix ≠ name := by
  rintro rfl
  apply h
  unfold key
  rw [String.toList_append, List.reverse_append, List.take_append_of_le_length]
  rwa [List.length_reverse]

/-- The keys that are not of a number. -/
def fixedKeys : List String :=
  ["general.architecture", "general.alignment", "tokenizer.ggml.tokens"]

theorem key_not_fixed {e : String × GgufValue} (he : e ∈ m.numbers) : m.key e.1 ∉ fixedKeys := by
  have hends : ∀ suffix ∈ ["embedding_length", "feed_forward_length", "block_count", "attention.head_count",
      "attention.head_count_kv", "context_length", "vocab_size", "rope.freq_base", "attention.layer_norm_rms_epsilon"],
      3 ≤ suffix.toList.length ∧ ∀ name ∈ fixedKeys, suffix.toList.reverse.take 3 ≠ name.toList.reverse.take 3 := by
    decide +kernel
  have hmem : e.1 ∈ m.numbers.map Prod.fst := List.mem_map_of_mem he
  obtain ⟨hlong, hname⟩ := hends e.1 hmem
  exact fun hfixed => m.key_ne hlong (hname _ hfixed) rfl

theorem key_injective : Function.Injective m.key := by
  intro a b heq
  unfold key at heq
  have hchars := congrArg String.toList heq
  simp only [String.toList_append] at hchars
  exact String.toList_inj.mp (List.append_cancel_left hchars)

theorem nodup_keys : (m.entries.map Prod.fst).Nodup := by
  unfold entries
  rw [List.map_cons, List.map_map, List.nodup_cons]
  refine ⟨fun hmem => ?_, ?_⟩
  · obtain ⟨e, he, heq⟩ := List.mem_map.mp hmem
    exact m.key_not_fixed he (by rw [show m.key e.1 = "general.architecture" from heq]; exact List.mem_cons_self)
  · have hsuffixes : (m.numbers.map Prod.fst).Nodup := by
      change (["embedding_length", "feed_forward_length", "block_count", "attention.head_count",
        "attention.head_count_kv", "context_length", "vocab_size", "rope.freq_base",
        "attention.layer_norm_rms_epsilon"] : List String).Nodup
      decide +kernel
    have hmap := hsuffixes.map m.key_injective
    rwa [List.map_map] at hmap

theorem lookup_of_mem {V : Type} {entries : List (String × V)} (hkeys : (entries.map Prod.fst).Nodup) {key : String}
    {v : V} (hmem : (key, v) ∈ entries) : entries.lookup key = some v := by
  induction entries with
  | nil => exact absurd hmem List.not_mem_nil
  | cons e entries ih =>
    rw [List.map_cons, List.nodup_cons] at hkeys
    rw [List.lookup_cons]
    rcases List.mem_cons.mp hmem with rfl | hrest
    · rw [beq_self_eq_true]
    · have hother : key ≠ e.1 := fun heq => hkeys.1 (heq ▸ List.mem_map_of_mem (f := Prod.fst) hrest)
      rw [beq_false_of_ne hother]
      exact ih hkeys.2 hrest

theorem lastValue_of_mem {key : String} {v : GgufValue} (hmem : (key, v) ∈ m.entries) : m.gguf.lastValue key = some v := by
  refine lookup_of_mem ?_ (List.mem_reverse.mpr hmem)
  rw [List.map_reverse, List.nodup_reverse]
  exact m.nodup_keys

theorem lastValue_number {e : String × GgufValue} (he : e ∈ m.numbers) : m.gguf.lastValue (m.key e.1) = some e.2 :=
  m.lastValue_of_mem (List.mem_cons_of_mem _ (List.mem_map_of_mem (f := fun e => (m.key e.1, e.2)) he))

theorem lastValue_none {key : String} (hfixed : key ∈ fixedKeys) (hother : key ≠ "general.architecture") :
    m.gguf.lastValue key = none := by
  unfold GgufModel.lastValue
  rw [List.lookup_eq_none_iff]
  intro e he
  rw [bne_iff_ne]
  rintro rfl
  rcases List.mem_cons.mp (List.mem_reverse.mp he) with rfl | hnumber
  · exact hother rfl
  · obtain ⟨e', he', rfl⟩ := List.mem_map.mp hnumber
    exact m.key_not_fixed he' hfixed

/-! ### The file -/

variable {m}

theorem wellFormed_gguf (h : m.WellFormed) : m.gguf.WellFormed ∧ m.gguf.DimsFit ∧
    (GgufFile.fileOf m.gguf).tensors = m.tensors.map loaded := by
  -- The data section is part of the file, so it is shorter than the file's bound.
  have hsize : (dataOf m.tensors).length < 2 ^ 63 := by
    have hsmall := h.size
    unfold GgufModel.write at hsmall
    rw [List.length_append, List.length_append] at hsmall
    have hdata : m.gguf.data.length = (dataOf m.tensors).length := rfl
    omega
  obtain ⟨hinfos, hmap⟩ := infosFrom_spec h.tensors [] (by rwa [List.nil_append])
  rw [List.nil_append] at hinfos hmap
  refine ⟨⟨.inr rfl, ?_, fun info hinfo => (hinfos info hinfo).1, h.size⟩, fun info hinfo => (hinfos info hinfo).2, hmap⟩
  -- The architecture comes first in the metadata, the numbers behind it.
  refine List.forall_mem_cons.mpr ⟨⟨?_, h.keys.1⟩, fun e he => ?_⟩
  · show ShortString "general.architecture"
    unfold ShortString
    decide
  · obtain ⟨e', he', rfl⟩ := List.mem_map.mp he
    refine ⟨h.keys.2 e' he', ?_⟩
    have hplain : ∀ e ∈ m.numbers, e.2.WellFormed := by simp [numbers, GgufValue.WellFormed]
    exact hplain e' he'

theorem length_infosFrom (offset : Nat) (tensors : List (String × Stored)) :
    (infosFrom offset tensors).length = tensors.length := by
  induction tensors generalizing offset with
  | nil => rfl
  | cons e tensors ih => rw [infosFrom, List.length_cons, List.length_cons, ih]

theorem length_optional_le (name : String) (s : Option Stored) : (optional name s).length ≤ 1 := by
  cases s with
  | none => exact Nat.zero_le 1
  | some s => exact Nat.le_refl 1

theorem length_layerTensors_le (e : StoredLayer × Nat) : (layerTensors e).length ≤ 12 := by
  have hq := length_optional_le "attn_q.bias" (e.1.biasQ.map .vector)
  have hk := length_optional_le "attn_k.bias" (e.1.biasK.map .vector)
  have hv := length_optional_le "attn_v.bias" (e.1.biasV.map .vector)
  simp only [layerTensors, StoredLayer.parts, List.length_map, List.length_append, List.length_cons, List.length_nil]
  omega

/-- A layer has at most twelve tensors. -/
theorem tensorsFit_gguf (h : m.WellFormed) : m.gguf.TensorsFit := by
  -- At most twelve tensors a layer.
  have hlayers : (m.layers.zipIdx.flatMap layerTensors).length ≤ m.layers.length * 12 := by
    have hbound := List.sum_le_card_nsmul (m.layers.zipIdx.map fun e => (layerTensors e).length) 12 fun n hn => by
      obtain ⟨e, -, rfl⟩ := List.mem_map.mp hn
      exact length_layerTensors_le e
    rwa [List.length_map, List.length_zipIdx, nsmul_eq_mul, Nat.cast_id, ← List.length_flatMap] at hbound
  have houtput := length_optional_le "output.weight" m.output
  have hcount : m.gguf.infos.length = m.tensors.length := length_infosFrom 0 m.tensors
  have htensors : m.tensors.length =
      (optional "output.weight" m.output).length + (m.layers.zipIdx.flatMap layerTensors).length + 2 := by
    rw [tensors, List.length_cons, List.length_cons, List.length_append]
  have hfew := h.layers
  unfold GgufModel.TensorsFit GgufFile.tensorSize
  omega

/-- What the parser reads. -/
theorem parsed_gguf (h : m.WellFormed) : GgufFile.parsed m.gguf.write = .ok (GgufFile.fileOf m.gguf) := by
  obtain ⟨hwell, hfits, -⟩ := wellFormed_gguf h
  refine GgufFile.parsed_write hwell hfits ?_ (tensorsFit_gguf h)
  rw [m.lastValue_none (by decide) (by decide)]
  exact Option.some_ne_none _ |>.symm

/-! ### Names -/

theorem layerKey_inj {l l' : Nat} {part part' : String} (heq : layerKey l part = layerKey l' part') :
    l = l' ∧ part = part' := by
  -- The number ends at the first dot, which is no digit.
  have hnumber : Codec.ReadableOn (fun _ => True) fun n : Nat => Nat.toDigits 10 n ++ ['.'] := by
    refine Codec.readableOn_of_delimiter '.' (fun n _ hmem => ?_) fun n m _ _ heq => ?_
    · have hdigit := Nat.isDigit_of_mem_toDigits (Nat.zero_lt_succ 9) (Nat.le_refl 10) hmem
      exact absurd hdigit (by decide)
    · have hvalue := congrArg (fun digits => Nat.ofDigitChars 10 digits 0) heq
      simpa using hvalue
  have hchars := congrArg String.toList heq
  unfold layerKey at hchars
  simp only [String.toList_append, Nat.toString_eq_repr, Nat.toList_repr, List.append_assoc] at hchars
  have hdot : ".".toList = ['.'] := by simp
  obtain ⟨hl, hpart⟩ := hnumber l l' part.toList part'.toList trivial trivial (by
    have hrest := List.append_cancel_left hchars
    rw [hdot] at hrest
    simpa using hrest)
  exact ⟨hl, String.toList_inj.mp hpart⟩

/-- The names in front of the layers. -/
theorem layerKey_ne (l : Nat) (part : String) :
    layerKey l part ∉ ["token_embd.weight", "output_norm.weight", "output.weight"] := by
  have hfirst : (layerKey l part).toList.head? = some 'b' := by
    unfold layerKey
    simp [String.toList_append]
  intro hmem
  have hnames : ∀ name ∈ ["token_embd.weight", "output_norm.weight", "output.weight"], name.toList.head? ≠ some 'b' := by
    decide +kernel
  exact hnames _ hmem hfirst

theorem nodup_parts (layer : StoredLayer) : (layer.parts.map Prod.fst).Nodup := by
  obtain ⟨attnNorm, attnQ, attnK, attnV, attnOutput, ffnNorm, ffnGate, ffnDown, ffnUp, biasQ, biasK, biasV⟩ := layer
  have hnames : ∀ q ∈ [[], ["attn_q.bias"]], ∀ k ∈ [[], ["attn_k.bias"]], ∀ v ∈ [[], ["attn_v.bias"]],
      (["attn_norm.weight", "attn_q.weight", "attn_k.weight", "attn_v.weight", "attn_output.weight", "ffn_norm.weight",
        "ffn_gate.weight", "ffn_down.weight", "ffn_up.weight"] ++ (q ++ (k ++ v))).Nodup := by decide +kernel
  have hoptional : ∀ (name : String) (s : Option Stored), (optional name s).map Prod.fst ∈ [[], [name]] := by
    intro name s
    cases s <;> simp [optional]
  have hall := hnames _ (hoptional _ (biasQ.map .vector)) _
    (hoptional _ (biasK.map .vector)) _ (hoptional _ (biasV.map .vector))
  unfold StoredLayer.parts
  rw [List.map_append, List.map_append, List.map_append]
  exact hall

theorem nodup_names : (m.tensors.map Prod.fst).Nodup := by
  have hlayers : ((m.layers.zipIdx.flatMap layerTensors).map Prod.fst).Nodup ∧
      ∀ name ∈ (m.layers.zipIdx.flatMap layerTensors).map Prod.fst, ∃ l part, name = layerKey l part := by
    rw [List.map_flatMap]
    constructor
    · rw [List.nodup_flatMap]
      constructor
      · intro e he
        have hnames := (nodup_parts e.1).map (f := layerKey e.2) fun a b heq => (layerKey_inj heq).2
        unfold layerTensors
        rw [List.map_map] at hnames ⊢
        exact hnames
      · -- layers differ in their numbers
        have hindices : (m.layers.zipIdx.map Prod.snd).Nodup := by
          rw [List.zipIdx_map_snd]
          exact List.nodup_range'
        refine (List.pairwise_map.mp hindices).imp fun {e e'} hne => ?_
        refine List.disjoint_left.mpr fun name hname hname' => ?_
        unfold layerTensors at hname hname'
        dsimp only at hname hname'
        rw [List.map_map] at hname hname'
        obtain ⟨part, -, rfl⟩ := List.mem_map.mp hname
        obtain ⟨part', -, heq⟩ := List.mem_map.mp hname'
        exact hne (layerKey_inj heq).1.symm
    · intro name hname
      obtain ⟨e, -, he⟩ := List.mem_flatMap.mp hname
      unfold layerTensors at he
      rw [List.map_map] at he
      obtain ⟨part, -, rfl⟩ := List.mem_map.mp he
      exact ⟨e.2, part.1, rfl⟩
  obtain ⟨hnodup, hkeys⟩ := hlayers
  have hfront : ∀ o ∈ [[], ["output.weight"]], ("token_embd.weight" :: "output_norm.weight" :: o).Nodup ∧
      ∀ name ∈ "token_embd.weight" :: "output_norm.weight" :: o,
        name ∈ ["token_embd.weight", "output_norm.weight", "output.weight"] := by decide +kernel
  have hoptional : (optional "output.weight" m.output).map Prod.fst ∈ [[], ["output.weight"]] := by
    cases m.output <;> simp [optional]
  obtain ⟨hfixed, hmem⟩ := hfront _ hoptional
  have hnames : m.tensors.map Prod.fst = ("token_embd.weight" :: "output_norm.weight" ::
      (optional "output.weight" m.output).map Prod.fst) ++ (m.layers.zipIdx.flatMap layerTensors).map Prod.fst := by
    unfold tensors
    rw [List.map_cons, List.map_cons, List.map_append]
    rfl
  rw [hnames]
  refine hfixed.append hnodup (List.disjoint_left.mpr fun name hname hname' => ?_)
  obtain ⟨l, part, rfl⟩ := hkeys name hname'
  exact layerKey_ne l part (hmem _ hname)

theorem names_infos (h : m.WellFormed) : m.gguf.infos.map TensorInfo.name = m.tensors.map Prod.fst := by
  obtain ⟨-, -, htensors⟩ := wellFormed_gguf h
  have heach := congrArg (List.map GgufTensor.name) htensors
  unfold GgufFile.fileOf at heach
  rw [List.map_map, List.map_map] at heach
  exact heach

/-- Every tensor is found under its name. -/
theorem tensor_of_mem (h : m.WellFormed) {name : String} {s : Stored} (hmem : (name, s) ∈ m.tensors) :
    (GgufFile.fileOf m.gguf).tensor name = .ok (some (loaded (name, s))) := by
  have hnames := names_infos h
  obtain ⟨-, -, htensors⟩ := wellFormed_gguf h
  have hname : name ∈ m.tensors.map Prod.fst := List.mem_map_of_mem (f := Prod.fst) hmem
  obtain ⟨i, hi⟩ := lookup_reverse_zipIdx_of_mem hname
  obtain ⟨hat, -⟩ := (lookup_reverse_zipIdx _ name i).mp hi
  rw [List.getElem?_map] at hat
  obtain ⟨e, he, rfl⟩ := Option.map_eq_some_iff.mp hat
  -- Names are distinct, so the entry found under the name is the one asked for.
  have hsame : e = (e.1, s) :=
    Prod.ext rfl (Option.some.inj ((lookup_of_mem nodup_names (List.mem_of_getElem? he)).symm.trans
      (lookup_of_mem nodup_names hmem)))
  unfold GgufFile.tensor
  rw [GgufFile.byName_fileOf, hnames, hi, htensors]
  dsimp only
  rw [index_eq_ok.mpr (show (m.tensors.map loaded)[i]? = some (loaded e) by rw [List.getElem?_map, he]; rfl), ok_bind, hsame]
  rfl

theorem tensor_of_notMem {name : String} (hnot : name ∉ m.tensors.map Prod.fst) (h : m.WellFormed) :
    (GgufFile.fileOf m.gguf).tensor name = .ok none := by
  have hnames := names_infos h
  unfold GgufFile.tensor
  rw [GgufFile.byName_fileOf, hnames]
  cases hfound : (m.tensors.map Prod.fst).zipIdx.reverse.lookup name with
  | none => rfl
  | some i => exact absurd (List.mem_of_getElem? ((lookup_reverse_zipIdx _ name i).mp hfound).1) hnot

theorem mem_layer {l : Nat} {part : String} {s : Stored} :
    (layerKey l part, s) ∈ m.tensors ↔ ∃ layer, m.layers[l]? = some layer ∧ (part, s) ∈ layer.parts := by
  have hfixed := layerKey_ne l part
  simp only [List.mem_cons, List.not_mem_nil, or_false, not_or] at hfixed
  -- The three tensors outside the layers have names no layer's key equals.
  have hlayers : (layerKey l part, s) ∈ m.tensors ↔ (layerKey l part, s) ∈ m.layers.zipIdx.flatMap layerTensors := by
    unfold tensors
    cases m.output <;> simp [optional, hfixed]
  rw [hlayers, List.mem_flatMap]
  constructor
  · rintro ⟨e, he, hmem⟩
    obtain ⟨q, hq, heq⟩ := List.mem_map.mp hmem
    obtain ⟨hkey, rfl⟩ := Prod.mk.inj heq
    obtain ⟨rfl, rfl⟩ := layerKey_inj hkey
    exact ⟨e.1, List.mem_zipIdx_iff_getElem?.mp he, hq⟩
  · rintro ⟨layer, hlayer, hmem⟩
    exact ⟨(layer, l), List.mem_zipIdx_iff_getElem?.mpr hlayer,
      List.mem_map.mpr ⟨(part, s), hmem, rfl⟩⟩

/-! ### The loaders -/

theorem metadata_of_number (m : StoredModel) {suffix : String} {v : GgufValue} (he : (suffix, v) ∈ m.numbers) :
    (GgufFile.fileOf m.gguf).metadata[m.arch ++ "." ++ suffix]? = some v := by
  rw [GgufFile.metadata_fileOf]
  exact m.lastValue_number he

theorem metadataStr_arch (m : StoredModel) :
    (GgufFile.fileOf m.gguf).metadataStr "general.architecture" = .ok m.arch := by
  unfold GgufFile.metadataStr
  rw [GgufFile.metadata_fileOf, m.lastValue_of_mem List.mem_cons_self]

theorem readU32Loose_number (m : StoredModel) {suffix : String} {v : UInt32} (he : (suffix, .u32 v) ∈ m.numbers) :
    Config.readU32Loose (GgufFile.fileOf m.gguf) (m.arch ++ "." ++ suffix) = .ok v.toNat := by
  unfold Config.readU32Loose
  rw [m.metadata_of_number he]

/-- The configuration of the model. -/
def config (m : StoredModel) : Config where
  dim := m.dim.toNat
  hiddenDim := m.hiddenDim.toNat
  nLayers := m.layers.length
  nHeads := m.nHeads.toNat
  nKvHeads := m.nKvHeads.toNat
  vocabSize := m.vocabSize.toNat
  seqLen := m.seqLen.toNat
  sharedWeights := m.output.isNone

theorem output_of_file (h : m.WellFormed) : (GgufFile.fileOf m.gguf).tensor "output.weight" =
    .ok (m.output.map fun s => loaded ("output.weight", s)) := by
  cases houtput : m.output with
  | some s =>
    refine tensor_of_mem h ?_
    simp [tensors, optional, houtput]
  -- Shared classifier: no tensor of the file has that name.
  | none =>
    refine tensor_of_notMem (fun hmem => ?_) h
    unfold tensors at hmem
    rw [houtput, List.map_cons, List.map_cons, List.mem_cons, List.mem_cons] at hmem
    -- Neither of the two fixed names, nor a key of a layer.
    rcases hmem with hname | hname | hname
    · exact absurd hname (show ¬"output.weight" = "token_embd.weight" by decide)
    · exact absurd hname (show ¬"output.weight" = "output_norm.weight" by decide)
    · rw [optional, Option.map_none, Option.toList_none, List.nil_append, List.map_flatMap] at hname
      obtain ⟨e, -, he⟩ := List.mem_flatMap.mp hname
      unfold layerTensors at he
      rw [List.map_map] at he
      obtain ⟨part, -, hkey⟩ := List.mem_map.mp he
      exact layerKey_ne e.2 part.1 (by rw [show layerKey e.2 part.1 = "output.weight" from hkey]; decide)

theorem config_of_file (h : m.WellFormed) : Config.fromGguf (GgufFile.fileOf m.gguf) = .ok m.config := by
  have hcount : (UInt32.ofNat m.layers.length).toNat = m.layers.length := UInt32.toNat_ofNat_of_lt' h.layers
  -- Without a token list, the size of the vocabulary is read from the architecture's entry.
  have hvocab : (GgufFile.fileOf m.gguf).metadata["tokenizer.ggml.tokens"]? = none := by
    rw [GgufFile.metadata_fileOf, m.lastValue_none (by decide) (by decide)]
  unfold Config.fromGguf
  simp only [m.metadataStr_arch, ok_bind, hvocab, output_of_file h]
  -- The keys in the order `from_gguf` asks for them.
  rw [m.readU32Loose_number (v := m.dim) (by simp [numbers]), ok_bind,
    m.readU32Loose_number (v := m.hiddenDim) (by simp [numbers]), ok_bind,
    m.readU32Loose_number (v := UInt32.ofNat m.layers.length) (by simp [numbers]), ok_bind,
    m.readU32Loose_number (v := m.nHeads) (by simp [numbers]), ok_bind,
    m.readU32Loose_number (v := m.nKvHeads) (by simp [numbers]), unwrapOr_ok, ok_bind,
    m.readU32Loose_number (v := m.seqLen) (by simp [numbers]), ok_bind,
    m.readU32Loose_number (v := m.vocabSize) (by simp [numbers]), ok_bind, hcount]
  unfold config
  rw [Option.isNone_map]
  rfl

section Weights

variable {F : Type} [F32 F] {aligned : String → Bool}

/-- A matrix of a layer, as the passes have it. -/
def matrix (aligned : String → Bool) (name : String) (s : Stored) : QuantTensor :=
  quantTensor aligned (loaded (name, s))

def layerWeights (aligned : String → Bool) (l : Nat) (layer : StoredLayer) : QuantLayer F where
  rmsAttWeight := layer.attnNorm.map F32.ofBits
  wq := matrix aligned (layerKey l "attn_q.weight") layer.attnQ
  wk := matrix aligned (layerKey l "attn_k.weight") layer.attnK
  wv := matrix aligned (layerKey l "attn_v.weight") layer.attnV
  wo := matrix aligned (layerKey l "attn_output.weight") layer.attnOutput
  rmsFfnWeight := layer.ffnNorm.map F32.ofBits
  w1 := matrix aligned (layerKey l "ffn_gate.weight") layer.ffnGate
  w2 := matrix aligned (layerKey l "ffn_down.weight") layer.ffnDown
  w3 := matrix aligned (layerKey l "ffn_up.weight") layer.ffnUp
  bq := layer.biasQ.map (·.map F32.ofBits)
  bk := layer.biasK.map (·.map F32.ofBits)
  bv := layer.biasV.map (·.map F32.ofBits)

/-- The weights of the model. -/
def weights (aligned : String → Bool) (m : StoredModel) : QuantizedWeights F where
  tokenEmbeddingTable := matrix aligned "token_embd.weight" m.embedding
  layers := m.layers.zipIdx.map fun e => layerWeights aligned e.2 e.1
  rmsFinalWeight := m.outputNorm.map F32.ofBits
  wcls := m.output.map (matrix aligned "output.weight")
  ropeTheta := F32.ofBits m.freqBase
  rmsEps := F32.ofBits m.rmsEps
  ropeNeox := m.arch == "qwen2"

theorem getTensor_of_mem (h : m.WellFormed) {name : String} {s : Stored} (hmem : (name, s) ∈ m.tensors) :
    getTensor (GgufFile.fileOf m.gguf) name = .ok (loaded (name, s)) := by
  unfold getTensor
  rw [tensor_of_mem h hmem, ok_bind, okOr_some]

theorem f32View_vector (bits : List UInt32) :
    f32View (writeFloats bits) true = (.ok (bits.map F32.ofBits) : Res (List F)) := by
  unfold f32View
  rw [if_neg (by simp), if_neg (by decide), floats_writeFloats]

theorem readF32Tensor_of_mem (h : m.WellFormed) (haligned : ∀ name, aligned name = true) {name : String}
    {bits : List UInt32} (hmem : (name, .vector bits) ∈ m.tensors) :
    readF32Tensor aligned (GgufFile.fileOf m.gguf) name = (.ok (bits.map F32.ofBits) : Res (List F)) := by
  unfold readF32Tensor
  rw [getTensor_of_mem h hmem, ok_bind,
    if_neg (show ¬(loaded (name, .vector bits)).dtype ≠ .f32 from not_not_intro rfl), haligned]
  exact f32View_vector bits

/-- A bias is there exactly where the layer has one. -/
theorem readF32TensorOpt_bias (h : m.WellFormed) (haligned : ∀ name, aligned name = true) {l : Nat} {part : String}
    {layer : StoredLayer} (hlayer : m.layers[l]? = some layer) {bias : Option (List UInt32)}
    (hbias : ∀ s, (part, s) ∈ layer.parts ↔ ∃ bits, bias = some bits ∧ .vector bits = s) :
    readF32TensorOpt aligned (GgufFile.fileOf m.gguf) (layerKey l part) =
      (.ok (bias.map (·.map F32.ofBits)) : Res (Option (List F))) := by
  unfold readF32TensorOpt
  cases hsome : bias with
  -- A bias that is stored is read like a vector; one that is absent is no error.
  | some bits =>
    rw [tensor_of_mem h (mem_layer.mpr ⟨layer, hlayer, (hbias (.vector bits)).mpr ⟨bits, hsome, rfl⟩⟩), ok_bind]
    dsimp only
    rw [if_neg (show ¬(loaded (layerKey l part, .vector bits)).dtype ≠ .f32 from not_not_intro rfl), haligned]
    change (f32View (writeFloats bits) true >>= fun xs => pure (some xs)) = _
    rw [f32View_vector, ok_bind]
    rfl
  | none =>
    rw [tensor_of_notMem (fun hname => ?_) h]
    · rfl
    -- No other entry of the layer carries this key.
    · obtain ⟨e, he, hkey⟩ := List.mem_map.mp hname
      obtain ⟨layer', hlayer', hpart⟩ := mem_layer.mp (show (layerKey l part, e.2) ∈ m.tensors by
        rw [← show e.1 = layerKey l part from hkey]
        exact he)
      rw [hlayer] at hlayer'
      cases hlayer'
      obtain ⟨bits, hbits, -⟩ := (hbias e.2).mp hpart
      rw [hsome] at hbits
      cases hbits

theorem readLayer_of_file (h : m.WellFormed) (haligned : ∀ name, aligned name = true) {l : Nat} {layer : StoredLayer}
    (hlayer : m.layers[l]? = some layer) :
    readLayer aligned (GgufFile.fileOf m.gguf) l = (.ok (layerWeights aligned l layer) : Res (QuantLayer F)) := by
  have hmem : ∀ {part : String} {s : Stored}, (part, s) ∈ layer.parts → (layerKey l part, s) ∈ m.tensors :=
    fun hpart => mem_layer.mpr ⟨layer, hlayer, hpart⟩
  have hvector : ∀ {part : String} (bits : List UInt32), (part, .vector bits) ∈ layer.parts →
      readF32Tensor aligned (GgufFile.fileOf m.gguf) (layerKey l part) = (.ok (bits.map F32.ofBits) : Res (List F)) :=
    fun bits hpart => readF32Tensor_of_mem h haligned (hmem hpart)
  have hmatrix : ∀ {part : String} (s : Stored), (part, s) ∈ layer.parts → (do
      let t ← getTensor (GgufFile.fileOf m.gguf) (layerKey l part)
      pure (quantTensor aligned t) : Res QuantTensor) = .ok (matrix aligned (layerKey l part) s) := by
    intro part s hpart
    rw [getTensor_of_mem h (hmem hpart), ok_bind]
    rfl
  have hbias : ∀ {part : String} (bias : Option (List UInt32)),
      (∀ s, (part, s) ∈ layer.parts ↔ ∃ bits, bias = some bits ∧ .vector bits = s) →
      readF32TensorOpt aligned (GgufFile.fileOf m.gguf) (layerKey l part) =
        (.ok (bias.map (·.map F32.ofBits)) : Res (Option (List F))) :=
    fun bias hpart => readF32TensorOpt_bias h haligned hlayer hpart
  -- The tensors of the block in the order the loader reads them, then the three biases.
  unfold readLayer
  dsimp only
  rw [hvector layer.attnNorm (by simp [StoredLayer.parts]), ok_bind,
    hmatrix layer.attnQ (by simp [StoredLayer.parts]), ok_bind, hmatrix layer.attnK (by simp [StoredLayer.parts]), ok_bind,
    hmatrix layer.attnV (by simp [StoredLayer.parts]), ok_bind,
    hmatrix layer.attnOutput (by simp [StoredLayer.parts]), ok_bind,
    hvector layer.ffnNorm (by simp [StoredLayer.parts]), ok_bind,
    hmatrix layer.ffnGate (by simp [StoredLayer.parts]), ok_bind,
    hmatrix layer.ffnDown (by simp [StoredLayer.parts]), ok_bind,
    hmatrix layer.ffnUp (by simp [StoredLayer.parts]), ok_bind]
  rw [hbias layer.biasQ (fun s => by simp [StoredLayer.parts, optional]), ok_bind,
    hbias layer.biasK (fun s => by simp [StoredLayer.parts, optional]), ok_bind,
    hbias layer.biasV (fun s => by simp [StoredLayer.parts, optional]), ok_bind]
  rfl

theorem readLayers_of_file (h : m.WellFormed) (haligned : ∀ name, aligned name = true) :
    collectRange m.layers.length (readLayer aligned (GgufFile.fileOf m.gguf)) =
      (.ok (m.weights aligned).layers : Res (List (QuantLayer F))) := by
  have heach : ∀ l < m.layers.length, ∃ blk : QuantLayer F, readLayer aligned (GgufFile.fileOf m.gguf) l = .ok blk :=
    fun l hl => ⟨_, readLayer_of_file h haligned (List.getElem?_eq_getElem hl)⟩
  obtain ⟨layers, hlayers, hcount⟩ := collectRange_ok heach
  rw [hlayers]
  congr 1
  -- Layer by layer: what the loop collected is what each call returned.
  refine List.ext_getElem? fun l => ?_
  rcases Nat.lt_or_ge l m.layers.length with hl | hl
  · have hread := (collectFrom_eq_ok hlayers).2 l layers[l] (List.getElem?_eq_getElem (by omega))
    rw [Nat.zero_add, readLayer_of_file h haligned (List.getElem?_eq_getElem hl)] at hread
    rw [List.getElem?_eq_getElem (by omega), ← Except.ok.inj hread]
    simp [weights, hl]
  · rw [List.getElem?_eq_none (by omega), List.getElem?_eq_none (by simp [weights, hl])]

theorem weights_of_file (h : m.WellFormed) (haligned : ∀ name, aligned name = true) :
    QuantizedWeights.fromGguf aligned (GgufFile.fileOf m.gguf) m.config =
      (.ok (m.weights aligned) : Res (QuantizedWeights F)) := by
  have hcount := h.layers
  have hreserve : reserveLayers m.layers.length = .ok () := if_pos (by omega)
  -- The configuration says "shared" exactly when the file has no classifier.
  have hshared : ¬(m.output.map fun s => loaded ("output.weight", s)).isSome = m.config.sharedWeights := by
    unfold config
    cases m.output <;> simp
  have hnumber : ∀ {suffix : String} (bits : UInt32) (default : F), (suffix, .f32 bits) ∈ m.numbers →
      readF32Meta (GgufFile.fileOf m.gguf) (m.arch ++ "." ++ suffix) default = F32.ofBits bits := by
    intro suffix bits default he
    unfold readF32Meta
    rw [m.metadata_of_number he]
  -- The two keys are put together differently here and in the table of numbers.
  have hfreq : m.arch ++ ".rope.freq_base" = m.arch ++ "." ++ "rope.freq_base" := by
    rw [String.append_assoc]
    rfl
  have heps : m.arch ++ ".attention.layer_norm_rms_epsilon" = m.arch ++ "." ++ "attention.layer_norm_rms_epsilon" := by
    rw [String.append_assoc]
    rfl
  unfold QuantizedWeights.fromGguf
  rw [getTensor_of_mem h (List.mem_cons_self : ("token_embd.weight", m.embedding) ∈ m.tensors), ok_bind,
    readF32Tensor_of_mem h haligned (List.mem_cons_of_mem _ List.mem_cons_self), ok_bind, output_of_file h, ok_bind,
    if_neg hshared, m.metadataStr_arch, unwrapOr_ok, ok_bind, hfreq, heps,
    hnumber m.freqBase _ (by simp [numbers]), hnumber m.rmsEps _ (by simp [numbers]),
    show m.config.nLayers = m.layers.length from rfl, hreserve, ok_bind, readLayers_of_file h haligned, ok_bind, Option.map_map]
  rfl

/-- **What is written is loaded**: a written model parses, and the two loaders read its configuration and its weights. -/
theorem load_written (h : m.WellFormed) (haligned : ∀ name, aligned name = true) :
    ∃ g, GgufFile.parsed m.gguf.write = .ok g ∧ Config.fromGguf g = .ok m.config ∧
      QuantizedWeights.fromGguf aligned g m.config = (.ok (m.weights aligned) : Res (QuantizedWeights F)) :=
  ⟨_, parsed_gguf h, config_of_file h, weights_of_file h haligned⟩

end Weights

/-! ### A small model -/

theorem Stored.wellFormed_f32 {s : Stored} (hdtype : s.dtype = .f32) (hrank : s.shape.length ≤ 2)
    (hdims : ∀ d ∈ s.shape, d.toNat < 2 ^ 16) (hbytes : s.bytes.length = numelOf s.shape * 4) : s.WellFormed := by
  obtain ⟨shape, dtype, bytes⟩ := s
  obtain rfl : dtype = .f32 := hdtype
  refine ⟨Nat.le_trans hrank (by decide), fun k hk => ?_, 1, 4, rfl, Nat.mod_one _, by simpa using hbytes⟩
  -- With two dimensions below 2 ^ 16, no prefix product leaves the word.
  have hlist : ∀ ds : List UInt64, ds.length ≤ 2 → (∀ d ∈ ds, d.toNat < 2 ^ 16) → numelOf ds < 2 ^ 64 := by
    intro ds hlength hsmall
    match ds with
    | [] => simp [numelOf]
    | [a] =>
      have ha := hsmall a List.mem_cons_self
      simp only [numelOf, List.map_cons, List.map_nil, List.prod_cons, List.prod_nil]
      omega
    | [a, b] =>
      have ha := hsmall a List.mem_cons_self
      have hb := hsmall b (List.mem_cons_of_mem a List.mem_cons_self)
      have hmul : a.toNat * b.toNat ≤ 2 ^ 16 * 2 ^ 16 := Nat.mul_le_mul (Nat.le_of_lt ha) (Nat.le_of_lt hb)
      simp only [numelOf, List.map_cons, List.map_nil, List.prod_cons, List.prod_nil, Nat.mul_one]
      omega
    | a :: b :: c :: ds => simp only [List.length_cons] at hlength; omega
  exact hlist _ (Nat.le_trans (List.length_take_le' k shape) hrank) fun d hd => hdims d (List.mem_of_mem_take hd)

/-- A matrix of zeros. -/
def zeros : Stored :=
  ⟨[2, 2], .f32, List.replicate 16 0⟩

/-- One layer of one head. -/
def small : StoredModel where
  arch := "llama"
  dim := 2
  hiddenDim := 2
  nHeads := 1
  nKvHeads := 1
  vocabSize := 2
  seqLen := 2
  freqBase := 0x461C4000
  rmsEps := 0x3727C5AC
  embedding := zeros
  outputNorm := [0x3F800000, 0x3F800000]
  output := none
  layers := [⟨[0x3F800000, 0x3F800000], zeros, zeros, zeros, zeros, [0x3F800000, 0x3F800000], zeros, zeros, zeros,
    none, none, none⟩]

theorem wellFormed_small : small.WellFormed := by
  have htensors : ∀ e ∈ small.tensors, e.1.asBytes.length ≤ 2 ^ 20 ∧ e.2.dtype = .f32 ∧ e.2.shape.length ≤ 2 ∧
      e.2.shape.all (·.toNat < 2 ^ 16) ∧ e.2.bytes.length = numelOf e.2.shape * 4 := by decide +kernel
  have hkeys : ∀ e ∈ small.numbers, (small.key e.1).asBytes.length ≤ 2 ^ 20 := by decide +kernel
  refine ⟨by decide, fun e he => ?_, ⟨?_, hkeys⟩, by decide +kernel⟩
  · obtain ⟨hname, hdtype, hrank, hdims, hbytes⟩ := htensors e he
    have hsmall : ∀ d ∈ e.2.shape, d.toNat < 2 ^ 16 := fun d hd => of_decide_eq_true (List.all_eq_true.mp hdims d hd)
    exact ⟨hname, Stored.wellFormed_f32 hdtype hrank hsmall hbytes⟩
  · unfold ShortString
    decide

theorem load_written_small : ∃ g, GgufFile.parsed small.gguf.write = .ok g ∧ Config.fromGguf g = .ok small.config ∧
    QuantizedWeights.fromGguf (fun _ => true) g small.config =
      (.ok (small.weights fun _ => true) : Res (QuantizedWeights Cost)) :=
  load_written wellFormed_small fun _ => rfl

end StoredModel

end VitniTensor
