import VitniTensor.Inference.RunChecks
import VitniTensor.Inference.VitniReceipt

/-!
# Runs on a loaded file

The parser and the loaders check neither the head counts of a file nor the sizes of its matrices against each other.
Which accepted files are safe to run is decided by the checks of a run.
-/

namespace VitniTensor

open Outcome Check Exec QuantizedWeights StoredModel VitniReceipt

variable {F : Type} [F32 F] {build : Build} {blake3 : Blake3} {aligned : String → Bool} {blob : List UInt8}
  {gguf : GgufFile} {cfg : Config} {w : QuantizedWeights F}

omit [F32 F] in
theorem ReadsMatrix.length_lt (hparsed : GgufFile.parsed blob = .ok gguf) (hmemory : blob.length < 2 ^ 63) {name : String}
    {m : QuantTensor} (h : ReadsMatrix gguf aligned name m) : m.bytes.length < 2 ^ 63 := by
  obtain ⟨t, htensor, rfl⟩ := h
  exact Nat.lt_of_le_of_lt (GgufFile.loaded_bytes hparsed (GgufFile.mem_of_tensor htensor)).1 hmemory

/-- The weights of a file are slices of it. -/
theorem VitniReceipt.Loads.stored (h : Loads aligned blob gguf cfg w) : w.Stored cfg := by
  have hreads := readsWeights_of_fromGguf h.weights
  have hslice : ∀ {name : String} {m : QuantTensor}, ReadsMatrix gguf aligned name m → m.bytes.length < 2 ^ 63 :=
    fun hm => hm.length_lt h.parsed h.memory
  refine ⟨hreads.count, hslice hreads.embedding, fun t ht => hslice (hreads.output t ht), fun blk hmem t ht => ?_⟩
  obtain ⟨l, hl⟩ := List.getElem?_of_mem hmem
  obtain ⟨-, hq, hk, hv, ho, -, h1, h2, h3, -⟩ := hreads.layers l blk hl
  simp only [QuantLayer.matrices, List.mem_cons, List.not_mem_nil, or_false] at ht
  rcases ht with rfl | rfl | rfl | rfl | rfl | rfl | rfl
  exacts [hslice hq, hslice hk, hslice hv, hslice ho, hslice h1, hslice h2, hslice h3]

theorem readU32Loose_lt {key : String} {n : Nat} (h : Config.readU32Loose gguf key = .ok n) : n < wordSize := by
  unfold Config.readU32Loose at h
  unfold wordSize
  split at h
  next v _ => cases h; have := v.toNat_lt; omega
  next v _ => cases h; exact v.toNat_lt
  next v _ =>
    split at h
    next => cases h; have := v.toInt_lt; omega
    next => cases h
  next v _ =>
    split at h
    next => cases h; have := v.toInt_lt; omega
    next => cases h
  next => cases h

/-- The context length of a file is a number of the file. -/
theorem seqLen_lt (h : Config.fromGguf gguf = .ok cfg) : cfg.seqLen < wordSize := by
  unfold Config.fromGguf at h
  dsimp only at h
  split at h
  next => cases h
  next =>
    obtain ⟨arch, -, h⟩ := bind_eq_ok.mp h
    obtain ⟨dim, -, h⟩ := bind_eq_ok.mp h
    obtain ⟨hiddenDim, -, h⟩ := bind_eq_ok.mp h
    obtain ⟨nLayers, -, h⟩ := bind_eq_ok.mp h
    obtain ⟨nHeads, -, h⟩ := bind_eq_ok.mp h
    obtain ⟨nKvHeads, -, h⟩ := bind_eq_ok.mp h
    obtain ⟨seqLen, hseq, h⟩ := bind_eq_ok.mp h
    split at h
    all_goals
      obtain ⟨vocabSize, -, h⟩ := bind_eq_ok.mp h
      obtain ⟨output, -, h⟩ := bind_eq_ok.mp h
      cases h
      exact readU32Loose_lt hseq

/-- **Which files are safe to run**: on a file that the parser and both loaders accept, every request in bounds ends with
a value or an error exactly where the runs of the model are guarded. -/
theorem loaded_survives_iff (h : Loads aligned blob gguf cfg w) (weightsBlobHash : Hash) :
    (∀ req : Request, req.promptTokens.length + req.nNewTokens ≤ cfg.seqLen →
      (runQuantized build blake3 cfg w weightsBlobHash req).Survives) ↔ w.Guarded build cfg 2 :=
  runs_survive_iff h.stored (seqLen_lt h.config) weightsBlobHash

/-! ### A file that is safe to run -/

/-- A token is looked up behind a test, and nothing else depends on it. -/
theorem guarded_small : (small.weights (fun _ => true) : QuantizedWeights Cost).Guarded .serial small.config 2 := by
  have hlookup : ∀ token : UInt32, Safe (lookupChecks (small.weights (fun _ => true) : QuantizedWeights Cost).tokenEmbeddingTable
      token.toNat small.config.dim) := by
    intro token
    have hword := token.toNat_lt
    have hfirst : (token.toNat + 1) * 2 < wordSize := by unfold wordSize; omega
    have hbytes : (token.toNat + 1) * 2 * 4 < wordSize := by unfold wordSize; omega
    show Safe [.trust ((token.toNat + 1) * 2 < wordSize), .trust ((token.toNat + 1) * 2 * 4 < wordSize),
      .test ((token.toNat + 1) * 2 * 4 ≤ 16), .test (16 % 4 = 0), .test (true = true)]
    simp [Safe, Check.trust, Check.test, hfirst, hbytes]
  have hrest : ∀ pos < 2, Safe (((List.range' 0 1).flatMap (Pass.plain .serial noHash small.config
      (small.weights (fun _ => true) : QuantizedWeights Cost) 2 pos).layerChecks ++ (Pass.plain .serial noHash small.config
      (small.weights (fun _ => true) : QuantizedWeights Cost) 2 pos).logitsChecks) ++ [.trust (0 < small.config.vocabSize)]) := by
    decide +kernel
  refine ⟨by decide +kernel, fun _ pos hpos _ token => ?_⟩
  unfold turnChecks Pass.stepChecks
  rw [List.append_assoc]
  exact safe_append.mpr ⟨by decide +kernel, fun _ => safe_append.mpr ⟨hlookup token, fun _ => hrest pos hpos⟩⟩

/-- Also on a token that the table does not have. -/
theorem loaded_survives_small :
    (runQuantized .serial noHash small.config (small.weights (fun _ => true) : QuantizedWeights Cost)
        (noHash small.gguf.write) ⟨"m", [1], 1⟩).Survives ∧
      (runQuantized .serial noHash small.config (small.weights (fun _ => true) : QuantizedWeights Cost)
        (noHash small.gguf.write) ⟨"m", [7], 1⟩).Survives := by
  have hall := (@loaded_survives_iff Cost _ .serial noHash _ _ _ _ _ loads_small (noHash small.gguf.write)).mpr guarded_small
  exact ⟨hall ⟨"m", [1], 1⟩ (by decide), hall ⟨"m", [7], 1⟩ (by decide)⟩

/-! ### A file that is not -/

/-- The small model without heads. -/
def headless : StoredModel :=
  { small with nHeads := 0, nKvHeads := 0 }

theorem wellFormed_headless : headless.WellFormed := by
  have hkeys : ∀ e ∈ headless.numbers, (headless.key e.1).asBytes.length ≤ 2 ^ 20 := by decide +kernel
  exact ⟨wellFormed_small.layers, wellFormed_small.tensors, ⟨wellFormed_small.keys.1, hkeys⟩, by decide +kernel⟩

theorem loads_headless : Loads (fun _ => true) headless.gguf.write (GgufFile.fileOf headless.gguf) headless.config
    (headless.weights (fun _ => true) : QuantizedWeights Cost) where
  parsed := parsed_gguf wellFormed_headless
  config := config_of_file wellFormed_headless
  weights := weights_of_file wellFormed_headless fun _ => rfl
  memory := wellFormed_headless.size

/-- A division by zero, on a file of 1440 bytes. -/
theorem loaded_panics_headless : ¬∀ (F : Type) [F32 F] (build : Build) (blake3 : Blake3) (aligned : String → Bool)
    (blob : List UInt8) (gguf : GgufFile) (cfg : Config) (w : QuantizedWeights F), Loads aligned blob gguf cfg w →
      ∀ (weightsBlobHash : Hash) (req : Request), req.promptTokens.length + req.nNewTokens ≤ cfg.seqLen →
        (runQuantized build blake3 cfg w weightsBlobHash req).Survives := by
  intro hclaim
  have hrun : (runQuantized .serial noHash headless.config (headless.weights (fun _ => true) : QuantizedWeights Cost)
      (noHash headless.gguf.write) ⟨"m", [1], 1⟩) = .error (.panic .divideByZero) := by
    rw [runQuantized_eq]
    rfl
  have hsurvives := hclaim Cost .serial noHash _ _ _ _ _ loads_headless (noHash headless.gguf.write) ⟨"m", [1], 1⟩ (by decide)
  have hstop := hsurvives _ hrun
  simp [Handled] at hstop

end VitniTensor
