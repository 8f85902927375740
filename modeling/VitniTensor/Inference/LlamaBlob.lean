import VitniTensor.Inference.Greedy
import VitniTensor.Model.CacheFrame
import VitniTensor.Model.Llama2cLayout

/-!
# Runs of a llama2.c blob

From the bytes of the blob to the receipt: a written blob is loaded as the configuration and the arrays that it was
written from, and a run of these is behind the receipt of what their net generates.
-/

namespace VitniTensor

open Outcome Exec

variable {F : Type} [F32 F]

/-! ### What a net generates -/

namespace Net

variable {reduce : Reduction F} {m : Net F}

theorem length_decode (logs : List (List (KeyValue F))) (token : UInt32) (n : Nat) :
    (m.decode reduce logs token n).length = n := by
  induction n generalizing logs token with
  | zero => rfl
  | succ n ih => rw [decode, List.length_cons, ih]

/-- Every token that a net generates is one of its vocabulary. -/
theorem decode_mem (hvocab : 0 < m.vocabSize) (hfits : m.vocabSize ≤ 2 ^ 32) (logs : List (List (KeyValue F)))
    (token : UInt32) (n : Nat) : ∀ t ∈ m.decode reduce logs token n, t.toNat < m.vocabSize := by
  induction n generalizing logs token with
  | zero => exact fun t hmem => absurd hmem List.not_mem_nil
  | succ n ih =>
    -- the pick is an index into logits of the whole vocabulary
    have hlength : (m.step reduce logs.length (pastOf logs) token).1.length = m.vocabSize := length_step _ _ _
    have hpicked : (greedyToken (m.step reduce logs.length (pastOf logs) token).1).toNat < m.vocabSize :=
      hlength ▸ greedyToken_lt (by omega) (by omega)
    rw [decode]
    exact List.forall_mem_cons.mpr ⟨hpicked, ih _ _⟩

end Net

/-! ### The pass of a blob -/

variable {cfg : Config} {headSize kvMul : Nat}

theorem Config.Grouped.div_heads (h : cfg.Grouped headSize kvMul) (hheads : 0 < cfg.nHeads) :
    cfg.dim / cfg.nHeads = headSize := by
  rw [h.dim, Nat.mul_div_cancel_left _ hheads]

namespace BlobSections

/-- What a step of the loaded weights derives. -/
def pass (s : BlobSections cfg) (headSize kvMul : Nat) : DensePass F :=
  ⟨cfg, s.weights, 0, cfg.nKvHeads * headSize, kvMul, headSize⟩

theorem loadBlob_write (s : BlobSections cfg) (hpos : cfg.Positive) {blob : List UInt8} (hwrite : s.write = some blob)
    (hmem : blob.length < 2 ^ 63) : loadBlob blob true = .ok (cfg, (s.weights : Weights F)) := by
  unfold write at hwrite
  obtain ⟨header, hheader, hwrite⟩ := Option.bind_eq_some_iff.mp hwrite
  cases hwrite
  unfold loadBlob
  rw [Config.fromHeader_write hpos hheader, ok_bind, s.fromBlob_sections hpos (Config.length_header hheader) hmem]
  rfl

/-- No array is longer than the blob that it is written to. -/
theorem inMemory (s : BlobSections cfg) {blob : List UInt8} (hwrite : s.write = some blob) (hmem : blob.length < 2 ^ 63) :
    (s.weights : Weights F).InMemory := by
  unfold write at hwrite
  obtain ⟨header, -, hwrite⟩ := Option.bind_eq_some_iff.mp hwrite
  cases hwrite
  rw [List.length_append, length_writeFloats] at hmem
  unfold floats at hmem
  simp only [List.length_append, Vector.length_toList] at hmem
  constructor
  -- either classifier is as long as the token table
  all_goals
    change (List.map _ _).length * 4 < _
    rw [length_array]
    omega

theorem sized (s : BlobSections cfg) (hcfg : cfg.Grouped headSize kvMul) (hheads : 0 < cfg.nHeads) :
    (s.weights : Weights F).Sized cfg (cfg.nKvHeads * headSize) := by
  have hsize := hcfg.div_heads hheads
  have hwhole : cfg.nHeads * (cfg.dim / cfg.nHeads) = cfg.dim := by
    rw [hsize, ← hcfg.dim]
  constructor
  case embedding => exact length_array _
  case rmsAtt => exact length_array _
  case wq => exact (length_array _).trans (by rw [hwhole])
  case wk => exact (length_array _).trans (by rw [hsize])
  case wv => exact (length_array _).trans (by rw [hsize])
  case wo => exact (length_array _).trans (by rw [hwhole])
  case rmsFfn => exact length_array _
  case w1 => exact (length_array _).trans (by rw [Nat.mul_comm cfg.hiddenDim])
  case w2 => exact length_array _
  case w3 => exact (length_array _).trans (by rw [Nat.mul_comm cfg.hiddenDim])
  case rmsFinal => exact length_array _
  case wcls => exact length_array _

theorem pass_of (s : BlobSections cfg) (hcfg : cfg.Grouped headSize kvMul) (hpos : cfg.Positive)
    (hwidth : cfg.dim * cfg.nKvHeads < wordSize) :
    DensePass.of cfg (s.weights : Weights F) 0 = .ok (s.pass headSize kvMul) := by
  -- none of the three divisions leaves a rest
  have hkvDim : cfg.dim * cfg.nKvHeads / cfg.nHeads = cfg.nKvHeads * headSize := by
    rw [hcfg.dim, Nat.mul_assoc, Nat.mul_div_cancel_left _ hpos.nHeads, Nat.mul_comm]
  have hkvMul : cfg.nHeads / cfg.nKvHeads = kvMul := by
    rw [hcfg.group, Nat.mul_div_cancel _ hpos.nKvHeads]
  unfold DensePass.of Config.kvDim Config.kvMul Config.headSize
  rw [word_of_lt hwidth, ok_bind, div_of_pos hpos.nHeads, ok_bind, div_of_pos hpos.nKvHeads, ok_bind,
    div_of_pos hpos.nHeads, ok_bind, hkvDim, hkvMul, hcfg.div_heads hpos.nHeads]
  rfl

theorem pass_isSized (s : BlobSections cfg) (hcfg : cfg.Grouped headSize kvMul) (hpos : cfg.Positive)
    (hcaches : cfg.CachesFit) (hseq : cfg.seqLen < wordSize) {blob : List UInt8} (hwrite : s.write = some blob)
    (hmem : blob.length < 2 ^ 63) : (s.pass headSize kvMul : DensePass F).IsSized := by
  have heven := hcfg.even
  refine ⟨?_, hpos.dim, s.sized hcfg hpos.nHeads, s.inMemory hwrite hmem, hseq⟩
  constructor
  case dim => exact hcfg.dim
  case kvDim => rfl
  case group => exact hcfg.group
  case even => exact (Nat.mul_div_cancel' (Nat.dvd_of_mod_eq_zero heven)).symm
  case kvMulPos => exact Nat.pos_of_mul_pos_right (hcfg.group ▸ hpos.nHeads)
  case head =>
    change cfg.headSize = .ok headSize
    unfold Config.headSize
    rw [div_of_pos hpos.nHeads, hcfg.div_heads hpos.nHeads]
  case fits => exact Nat.lt_of_le_of_lt (Nat.le_mul_of_pos_right _ hpos.nKvHeads) hcaches.width

/-! ### From the blob to the receipt -/

variable {σ ε : Type}

/-- **A blob is run as its net**: a written blob that fits in memory is loaded without an error, and `run_with_sink` on
what was loaded issues, to any sink, the receipt of the tokens that greedy decoding of the net of the written arrays
generates: as many as were asked for, all of the vocabulary. -/
theorem blob_receipt {blake3 : Blake3} {weightsBlobHash : Hash} {req : Request} {sink : CertSink σ ε} {tier : UInt8}
    (s : BlobSections cfg) (hcfg : cfg.Grouped headSize kvMul) (hpos : cfg.Positive) (hcaches : cfg.CachesFit)
    {blob : List UInt8} (hwrite : s.write = some blob) (hmem : blob.length < 2 ^ 63) (hreq : req.InBounds cfg) :
    let generated := ((s.pass headSize kvMul : DensePass F).net CpuArchitecture.llamaValues).generate serialValue
      req.promptTokens req.nNewTokens
    ∃ weights : Weights F, loadBlob blob true = .ok (cfg, weights) ∧
      runWithSink blake3 cfg weights weightsBlobHash req sink tier =
        issueTokens blake3 cfg weightsBlobHash req sink tier generated ∧
      generated.length = req.nNewTokens ∧ ∀ token ∈ generated, token.toNat < cfg.vocabSize := by
  have hseq : cfg.seqLen < wordSize := by
    have hmemory := hreq.memory
    unfold wordSize
    omega
  have hof := s.pass_of (F := F) hcfg hpos hcaches.width
  have hd := s.pass_isSized (F := F) hcfg hpos hcaches hseq hwrite hmem
  refine ⟨s.weights, s.loadBlob_write hpos hwrite hmem, ?_, Net.length_decode _ _ _,
    Net.decode_mem (m := (s.pass headSize kvMul : DensePass F).net CpuArchitecture.llamaValues) hpos.vocabSize hreq.vocab
      _ _ _⟩
  exact (hd.llama_computes hof).receipt trivial (DensePass.of_kvDim hof) hcaches hreq

theorem tiny_grouped : tinyConfig.Grouped 2 2 :=
  ⟨rfl, rfl, rfl⟩

theorem smallRequest_inBounds_tiny : smallRequest.InBounds tinyConfig where
  some := List.cons_ne_nil 1 []
  tokens := List.forall_mem_singleton.mpr (show 1 < 2 by decide)
  fits := by decide
  vocab := by decide
  memory := by decide

theorem blob_receipt_tiny :
    ∃ blob, tiny.write = some blob ∧
      ∃ weights : Weights Cost, loadBlob blob true = .ok (tinyConfig, weights) ∧
        runWithSink noHash tinyConfig weights (noHash blob) smallRequest nullSink 0 =
          issueTokens noHash tinyConfig (noHash blob) smallRequest nullSink 0
            (((tiny.pass 2 2 : DensePass Cost).net CpuArchitecture.llamaValues).generate serialValue [1] 1) := by
  have hpos : tinyConfig.Positive := by
    constructor <;> decide
  have hcaches : tinyConfig.CachesFit := ⟨by decide, by decide, by decide, by decide⟩
  have hlength : tiny.write.map List.length = some 492 := by decide +kernel
  obtain ⟨blob, hwrite, hblob⟩ := Option.map_eq_some_iff.mp hlength
  obtain ⟨weights, hload, hrun, -⟩ := @blob_receipt Cost _ tinyConfig 2 2 Unit Empty noHash (noHash blob) smallRequest
    nullSink 0 tiny tiny_grouped hpos hcaches blob hwrite (by rw [hblob]; decide) smallRequest_inBounds_tiny
  exact ⟨blob, hwrite, weights, hload, hrun⟩

end BlobSections

end VitniTensor
