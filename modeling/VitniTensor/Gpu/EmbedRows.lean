import VitniTensor.Gguf.Loaded
import VitniTensor.Gpu.Cuda
import VitniTensor.Gpu.MetalReturns

/-!
# Embedding rows on the hosts

The hosts of both backends look up embedding rows themselves, with block constants and a dispatch of
their own. They return the row that the engine returns. Where the engine refuses, they do not: they
divide a ragged width without a remainder, read floats at any alignment, and index past the table.
-/

namespace VitniTensor

open Outcome

variable {F : Type} [F32 F]

/-- A CUDA host, with this table instead of its own. -/
def CudaForward.withTable (cf : CudaForward F) (t : QuantTensor) (dim : Nat) : CudaForward F :=
  { cf with dim := dim, embedBytes := t.bytes, embedDtype := t.dtype.debug }

/-- A Metal host, with this table instead of its own. -/
def MetalForward.withTable (mf : MetalForward F) (t : QuantTensor) (dim : Nat) : MetalForward F :=
  { mf with dim := dim, embedHost := t.bytes, embedDtype := t.dtype.debug }

/-! ### What a host owes -/

/-- The host returns the row that the engine returns, of the model's width, and refuses where it does. -/
structure LooksUpAs {ε : Type} (host : Outcome ε (List F)) (engine : Res (List F)) (dim : Nat) : Prop where
  same : ∀ row, engine = .ok row → host = .ok row ∧ row.length = dim
  refuses : ∀ e, engine = .error (.err e) → ∃ e', host = .error (.err e')

omit [F32 F] in
/-- A host that does not know errors owes nothing where the engine does not refuse, and fails where it does. -/
theorem looksUpAs_iff {ε : Type} {host : Outcome ε (List F)} {engine : Res (List F)} {dim : Nat}
    (herrorless : host.Errorless) (hsame : ∀ row, engine = .ok row → host = .ok row ∧ row.length = dim) :
    LooksUpAs host engine dim ↔ engine.Errorless := by
  constructor
  · intro h e he
    obtain ⟨e', he'⟩ := h.refuses e he
    exact herrorless e' he'
  · exact fun h => ⟨hsame, fun e he => absurd he (h e)⟩

/-- The engine does not refuse the row: a table of floats can be viewed and holds it, and a table of blocks
has whole blocks in each row and holds it. Or the row ends past `2^64`, where the engine's own product
overflows. -/
def QuantTensor.Readable (t : QuantTensor) (dim token : Nat) : Prop :=
  match t.dtype with
  | .f32 => 2 ^ 64 ≤ (token + 1) * dim * 4 ∨
      (token + 1) * dim * 4 ≤ t.bytes.length ∧ t.bytes.length % 4 = 0 ∧ t.aligned
  | .f16 | .other _ => False
  | dtype => ∃ per size, dtype.block = some (per, size) ∧ dim % per = 0 ∧
      (2 ^ 64 ≤ (token + 1) * (dim / per * size) ∨ (token + 1) * (dim / per * size) ≤ t.bytes.length)

theorem Cuda.engine_errorless {α : Type} {x : Res α} (hx : x.Errorless) : (Cuda.engine x).Errorless := by
  intro e he
  unfold Cuda.engine at he
  split at he
  next => cases he
  next e' => exact hx e' rfl
  next => cases he

/-! ### Tables of blocks -/

/-- How the engine and the hosts look up a row of a block format. -/
structure BlockArms (t : QuantTensor) (per size : Nat) (decode : List UInt8 → Res (List F)) : Prop where
  block : t.dtype.block = some (per, size)
  decodes : t.dtype.dequantizer F = some decode
  engine : ∃ ragged past, ∀ token dim,
    embeddingRow t token dim = embeddingBlocks per size ragged past decode t.bytes token dim
  cuda : ∀ (cf : CudaForward F) dim token, (cf.withTable t dim).embedRow token =
    CudaForward.embedBlocks (dim / per * size) decode t.bytes token
  metal : ∀ (mf : MetalForward F) dim token, (mf.withTable t dim).embedRow token =
    MetalForward.embedBlocks (dim / per * size) decode t.bytes token
  readable : ∀ dim token, t.Readable dim token ↔ dim % per = 0 ∧
    (2 ^ 64 ≤ (token + 1) * (dim / per * size) ∨ (token + 1) * (dim / per * size) ≤ t.bytes.length)

/-- Five of the formats are block formats. -/
theorem blockArms (t : QuantTensor) :
    t.dtype = .f32 ∨ (t.dtype = .f16 ∨ ∃ raw, t.dtype = .other raw) ∨
      ∃ per size, ∃ decode : List UInt8 → Res (List F), BlockArms t per size decode := by
  obtain ⟨shape, dtype, bytes, aligned⟩ := t
  -- A type has one block, so its readability can be stated for that block.
  have hreadable : ∀ {per size dim token : Nat} {ty : GgufTensorType}, ty.block = some (per, size) →
      ((∃ per' size', ty.block = some (per', size') ∧ dim % per' = 0 ∧
        (2 ^ 64 ≤ (token + 1) * (dim / per' * size') ∨ (token + 1) * (dim / per' * size') ≤ bytes.length)) ↔
      dim % per = 0 ∧
        (2 ^ 64 ≤ (token + 1) * (dim / per * size) ∨ (token + 1) * (dim / per * size) ≤ bytes.length)) := by
    intro per size dim token ty hblock
    constructor
    · rintro ⟨per', size', hblock', h⟩
      cases hblock.symm.trans hblock'
      exact h
    · exact fun h => ⟨per, size, hblock, h⟩
  cases dtype with
  | f32 => exact .inl rfl
  | f16 => exact .inr (.inl (.inl rfl))
  | other raw => exact .inr (.inl (.inr ⟨raw, rfl⟩))
  -- All blocked types go the same way, each with its own block and decoder.
  | _ =>
    refine .inr (.inr ⟨_, _, _, rfl, rfl, ⟨_, _, fun _ _ => rfl⟩, fun _ _ _ => rfl, fun _ _ _ => rfl, fun dim token => ?_⟩)
    exact hreadable rfl

namespace BlockArms

variable {t : QuantTensor} {per size : Nat} {decode : List UInt8 → Res (List F)} (h : BlockArms t per size decode)
include h

theorem pos : 0 < per ∧ 0 < size := by
  have hblock := h.block
  revert hblock
  cases t.dtype <;> simp [GgufTensorType.block] <;> omega

/-- The bytes of one row decode to as many elements as the whole blocks of the width hold, or to more than fit
in memory. -/
theorem decode_row {dim token : Nat} {bytes : List UInt8} {ε : Type}
    (hslice : (slice t.bytes (token * (dim / per * size)) ((token + 1) * (dim / per * size)) : Outcome ε (List UInt8)) =
      .ok bytes) : (∃ row, decode bytes = .ok row ∧ row.length = dim / per * per) ∨
        decode bytes = panic .capacityOverflow := by
  have hlength : bytes.length = dim / per * per / per * size := by
    rw [Nat.mul_div_cancel _ h.pos.1, length_of_slice hslice, Nat.succ_mul, Nat.add_sub_cancel_left]
  obtain ⟨hsmall, hlarge⟩ := GgufTensorType.dequantizer_whole h.decodes h.block (Nat.mul_mod_left _ _) hlength
  rcases Nat.lt_or_ge (dim / per * per * 4) (2 ^ 63) with hmemory | hmemory
  · exact .inl (hsmall hmemory)
  · exact .inr (hlarge hmemory)

theorem decode_errorless {dim token : Nat} {bytes : List UInt8} {ε : Type}
    (hslice : (slice t.bytes (token * (dim / per * size)) ((token + 1) * (dim / per * size)) : Outcome ε (List UInt8)) =
      .ok bytes) : (decode bytes).Errorless := by
  rcases h.decode_row hslice with ⟨row, hrow, -⟩ | hpanic
  · rw [hrow]
    exact errorless_ok row
  · rw [hpanic]
    exact errorless_panic _

/-- The engine refuses a ragged width and a row past the table. -/
theorem engine_errorless (dim token : Nat) :
    (embeddingRow t token dim : Res (List F)).Errorless ↔ t.Readable dim token := by
  obtain ⟨ragged, past, hengine⟩ := h.engine
  have hend : token * (dim / per) * size + dim / per * size = (token + 1) * (dim / per * size) := by
    rw [Nat.succ_mul, Nat.mul_assoc]
  have hsize : wordSize = 2 ^ 64 := rfl
  rw [hengine, h.readable]
  unfold embeddingBlocks
  dsimp only
  constructor
  -- Not an error: the row is whole, and ends inside the table or beyond a word.
  · intro herrorless
    by_cases hwhole : dim % per = 0
    · refine ⟨hwhole, ?_⟩
      by_contra hout
      rw [not_or, Nat.not_le, Nat.not_le] at hout
      have hstart : token * (dim / per) ≤ token * (dim / per) * size := Nat.le_mul_of_pos_right _ h.pos.2
      -- Were it outside, every checked product would pass and the bounds check would fail.
      rw [if_neg (not_not_intro hwhole), word_of_lt (by omega), ok_bind, word_of_lt (by omega), ok_bind,
        word_of_lt (by omega), ok_bind, word_of_lt (by omega), ok_bind, hend, if_pos hout.2] at herrorless
      exact herrorless _ rfl
    · rw [if_pos hwhole] at herrorless
      exact absurd rfl (herrorless _)
  -- Each product either panics or is the number itself.
  · rintro ⟨hwhole, hinside⟩
    rw [if_neg (not_not_intro hwhole)]
    apply (errorless_word _).bind
    intro start hstart
    obtain ⟨-, rfl⟩ := word_eq_ok.mp hstart
    apply (errorless_word _).bind
    intro rowStart hrowStart
    obtain ⟨-, rfl⟩ := word_eq_ok.mp hrowStart
    apply (errorless_word _).bind
    intro width hwidth
    obtain ⟨-, rfl⟩ := word_eq_ok.mp hwidth
    apply (errorless_word _).bind
    intro rowEnd hrowEnd
    obtain ⟨hword, rfl⟩ := word_eq_ok.mp hrowEnd
    have hle : ¬token * (dim / per) * size + dim / per * size > t.bytes.length := by omega
    rw [if_neg hle]
    apply (errorless_slice _ _ _).bind
    intro bytes hbytes
    rw [hend, Nat.mul_assoc] at hbytes
    exact h.decode_errorless hbytes

/-- Where the engine has a row, it is as wide as the model, and both hosts have it. -/
theorem hosts_same (cf : CudaForward F) (mf : MetalForward F) {dim token : Nat} {row : List F} (hrow : embeddingRow t token dim = .ok row) :
    (cf.withTable t dim).embedRow token = .ok row ∧ (mf.withTable t dim).embedRow token = .ok row ∧
      row.length = dim := by
  obtain ⟨ragged, past, hengine⟩ := h.engine
  have hreadable := (h.engine_errorless dim token).mp (by rw [hrow]; exact errorless_ok row)
  have hwhole := ((h.readable dim token).mp hreadable).1
  -- What the engine returns, the hosts' slice returns too: only the checks differ.
  have hmetal := MetalForward.embedBlocks_ok (hengine token dim ▸ hrow)
  obtain ⟨bytes, hbytes, hexpect⟩ := bind_eq_ok.mp hmetal
  -- The decoder may still panic, but then the engine had no row either.
  rcases h.decode_row hbytes with ⟨decoded, hdecoded, hlength⟩ | hpanic
  swap
  · rw [hpanic] at hexpect
    cases hexpect
  rw [hdecoded] at hexpect
  cases hexpect
  have hslice : (slice t.bytes (token * (dim / per * size)) ((token + 1) * (dim / per * size)) :
      Outcome CudaError (List UInt8)) = .ok bytes := slice_eq_ok.mpr (slice_eq_ok.mp hbytes)
  refine ⟨?_, by rw [h.metal, hmetal], by rw [hlength, Nat.div_mul_cancel (Nat.dvd_of_mod_eq_zero hwhole)]⟩
  rw [h.cuda, CudaForward.embedBlocks, hslice, ok_bind, hdecoded, Cuda.engine]

theorem cuda_errorless (cf : CudaForward F) (dim token : Nat) :
    ((cf.withTable t dim).embedRow token).Errorless := by
  rw [h.cuda]
  apply (errorless_slice _ _ _).bind
  intro bytes hbytes
  exact Cuda.engine_errorless (h.decode_errorless hbytes)

end BlockArms

/-! ### Tables of floats -/

namespace MetalForward

theorem f32At_errorless (b : List UInt8) (i : Nat) : (f32At b i : Res F).Errorless := by
  unfold f32At
  apply (errorless_index _ _).bind fun b0 _ => ?_
  apply (errorless_index _ _).bind fun b1 _ => ?_
  apply (errorless_index _ _).bind fun b2 _ => ?_
  exact (errorless_index _ _).bind fun b3 _ => errorless_ok _

theorem expect_errorless {α : Type} (x : Res α) : (expect x).Errorless := by
  unfold expect
  split
  next => exact errorless_panic _
  next hx => exact hx

/-- The lookup has no error to return. -/
theorem embedRow_errorless (mf : MetalForward F) (token : Nat) : (mf.embedRow token).Errorless := by
  have hblocks : ∀ (rb : Nat) (dequant : List UInt8 → Res (List F)), (embedBlocks rb dequant mf.embedHost token).Errorless :=
    fun rb dequant => (errorless_slice _ _ _).bind fun bytes _ => expect_errorless _
  unfold embedRow
  split
  next => exact collectFrom_errorless fun i => f32At_errorless _ _
  next => exact hblocks _ _
  next => exact hblocks _ _
  next => exact hblocks _ _
  next => exact hblocks _ _
  next => exact hblocks _ _
  next => exact errorless_panic _

end MetalForward

section Floats

variable {t : QuantTensor} (ht : t.dtype = .f32)
include ht

theorem floats_errorless (dim token : Nat) :
    (embeddingRow t token dim : Res (List F)).Errorless ↔ t.Readable dim token := by
  have hsize : wordSize = 2 ^ 64 := rfl
  unfold embeddingRow QuantTensor.Readable
  rw [ht]
  simp only
  -- Not an error: the products overflow, or the bytes suffice and divide by four.
  constructor
  · intro herrorless
    by_contra hout
    rw [not_or, Nat.not_le] at hout
    have hnumel : (token + 1) * dim ≤ (token + 1) * dim * 4 := Nat.le_mul_of_pos_right _ (by decide)
    rw [word_of_lt (by omega), ok_bind, word_of_lt (by omega), ok_bind] at herrorless
    split at herrorless
    next => exact herrorless _ rfl
    next hlong =>
      unfold f32View at herrorless
      split at herrorless
      next => exact herrorless _ rfl
      next hfour =>
        split at herrorless
        next => exact herrorless _ rfl
        next haligned => exact hout.2 ⟨Nat.not_lt.mp hlong, not_not.mp hfour, by simpa using haligned⟩
  -- Conversely no check is left that could fail.
  · intro hinside
    apply (errorless_word _).bind
    intro numel hnumel
    obtain ⟨-, rfl⟩ := word_eq_ok.mp hnumel
    apply (errorless_word _).bind
    intro need hneed
    obtain ⟨hword, rfl⟩ := word_eq_ok.mp hneed
    obtain ⟨hlong, hfour, haligned⟩ := hinside.resolve_left (Nat.not_le.mpr hword)
    unfold f32View
    rw [if_neg (Nat.not_lt.mpr hlong), if_neg (not_not_intro hfour), haligned]
    exact errorless_slice _ _ _

theorem floats_same (cf : CudaForward F) (mf : MetalForward F) {dim token : Nat} {row : List F} (hrow : embeddingRow t token dim = .ok row) :
    (cf.withTable t dim).embedRow token = .ok row ∧ (mf.withTable t dim).embedRow token = .ok row ∧
      row.length = dim := by
  have hdebug : t.dtype.debug = "F32" := by rw [ht]; rfl
  -- The engine went through all its checks.
  unfold embeddingRow at hrow
  rw [ht] at hrow
  obtain ⟨numel, hnumel, hrow⟩ := bind_eq_ok.mp hrow
  obtain ⟨need, hneed, hrow⟩ := bind_eq_ok.mp hrow
  split at hrow
  next => cases hrow
  next =>
    obtain ⟨w, hw, hslice⟩ := bind_eq_ok.mp hrow
    unfold f32View at hw
    split at hw
    next => cases hw
    next =>
      split at hw
      next => cases hw
      next =>
        cases hw
        -- The hosts view the same bytes, without the checks.
        have hcells := MetalForward.embedFloats_ok hslice
        refine ⟨?_, ?_, ?_⟩
        · unfold CudaForward.embedRow CudaForward.withTable
          simp only [hdebug]
          rw [hcells]
          rfl
        · unfold MetalForward.embedRow MetalForward.withTable
          simp only [hdebug]
          exact hcells
        · rw [length_of_slice hslice, Nat.succ_mul, Nat.add_sub_cancel_left]

theorem floats_cuda_errorless (cf : CudaForward F) (dim token : Nat) :
    ((cf.withTable t dim).embedRow token).Errorless := by
  have hdebug : t.dtype.debug = "F32" := by rw [ht]; rfl
  unfold CudaForward.embedRow CudaForward.withTable
  simp only [hdebug]
  exact Cuda.engine_errorless (collectFrom_errorless fun i => MetalForward.f32At_errorless _ _)

end Floats

/-! ### Other tables -/

theorem debug_other (raw : UInt32) {name : String} (h : name.toList.head? ≠ some 'O') :
    (GgufTensorType.other raw).debug ≠ name := by
  rintro rfl
  apply h
  simp [GgufTensorType.debug, String.toList_append]

/-- The CUDA host refuses the formats that the engine refuses. -/
theorem cuda_refuses (cf : CudaForward F) {t : QuantTensor} (ht : t.dtype = .f16 ∨ ∃ raw, t.dtype = .other raw)
    (dim token : Nat) : ∃ e, (cf.withTable t dim).embedRow token = .error (.err e) := by
  unfold CudaForward.embedRow CudaForward.withTable
  rcases ht with ht | ⟨raw, ht⟩
  · rw [ht]
    exact ⟨_, rfl⟩
  · rw [ht]
    -- An unknown type's name is none of the six the host compares with.
    dsimp only
    split
    next heq => exact absurd heq (debug_other raw (by decide))
    next heq => exact absurd heq (debug_other raw (by decide))
    next heq => exact absurd heq (debug_other raw (by decide))
    next heq => exact absurd heq (debug_other raw (by decide))
    next heq => exact absurd heq (debug_other raw (by decide))
    next heq => exact absurd heq (debug_other raw (by decide))
    next => exact ⟨_, rfl⟩

theorem engine_refuses {t : QuantTensor} (ht : t.dtype = .f16 ∨ ∃ raw, t.dtype = .other raw) (dim token : Nat) :
    ∃ e, (embeddingRow t token dim : Res (List F)) = .error (.err e) ∧ ¬t.Readable dim token := by
  unfold embeddingRow QuantTensor.Readable
  rcases ht with ht | ⟨raw, ht⟩
  · rw [ht]
    exact ⟨_, rfl, not_false⟩
  · rw [ht]
    exact ⟨_, rfl, not_false⟩

/-! ### When the hosts look up as the engine -/

/-- For every table, width and token: a host returns the engine's row, of the model's width, and refuses
where the engine refuses, exactly if the engine does not refuse the row. The CUDA host also does for a
format that neither knows. -/
theorem hosts_lookUp_iff (t : QuantTensor) (dim token : Nat) (cf : CudaForward F) (mf : MetalForward F) :
    (LooksUpAs ((cf.withTable t dim).embedRow token) (embeddingRow t token dim : Res (List F)) dim ↔
      t.Readable dim token ∨ t.dtype = .f16 ∨ ∃ raw, t.dtype = .other raw) ∧
    (LooksUpAs ((mf.withTable t dim).embedRow token) (embeddingRow t token dim) dim ↔ t.Readable dim token) := by
  have hmetal := (mf.withTable t dim).embedRow_errorless token
  -- Floats, types without a row, and blocked types.
  rcases blockArms (F := F) t with hfloat | hunknown | ⟨per, size, decode, harms⟩
  · have hknown : ¬(t.dtype = .f16 ∨ ∃ raw, t.dtype = .other raw) := by
      rw [hfloat]
      rintro (h | ⟨raw, h⟩) <;> cases h
    rw [looksUpAs_iff (floats_cuda_errorless hfloat cf dim token) fun row hrow =>
        ⟨(floats_same hfloat cf mf hrow).1, (floats_same hfloat cf mf hrow).2.2⟩,
      looksUpAs_iff hmetal fun row hrow => (floats_same hfloat cf mf hrow).2, floats_errorless hfloat, or_iff_left hknown]
    exact ⟨Iff.rfl, Iff.rfl⟩
  -- The engine refuses, CUDA refuses too, but Metal panics.
  · obtain ⟨e, hrefused, hunreadable⟩ := engine_refuses (F := F) hunknown dim token
    obtain ⟨e', hcuda⟩ := cuda_refuses cf hunknown dim token
    constructor
    · refine iff_of_true ⟨fun row hrow => ?_, fun _ _ => ⟨e', hcuda⟩⟩ (.inr hunknown)
      cases hrefused.symm.trans hrow
    · refine iff_of_false (fun h => ?_) hunreadable
      obtain ⟨e'', he''⟩ := h.refuses e hrefused
      exact hmetal e'' he''
  · have hknown : ¬(t.dtype = .f16 ∨ ∃ raw, t.dtype = .other raw) := by
      have hdecodes := harms.decodes
      rintro (h | ⟨raw, h⟩) <;> (rw [h] at hdecodes; cases hdecodes)
    rw [looksUpAs_iff (harms.cuda_errorless cf dim token) fun row hrow =>
        ⟨(harms.hosts_same cf mf hrow).1, (harms.hosts_same cf mf hrow).2.2⟩,
      looksUpAs_iff hmetal fun row hrow => (harms.hosts_same cf mf hrow).2, harms.engine_errorless, or_iff_left hknown]
    exact ⟨Iff.rfl, Iff.rfl⟩

/-- One row of 32 zeros. -/
def zeroQ8Row : QuantTensor :=
  ⟨[32, 1], .q8_0, List.replicate 34 0, true⟩

/-- For a width of 40 the engine refuses and both hosts return 32 elements; for the token behind the last
row it refuses and both hosts panic. -/
theorem hosts_do_not_refuse :
    (embeddingRow zeroQ8Row 0 40 : Res (List Float32)) =
      .error (.err (.internal "embedding_row Q8_0: dim must be a multiple of 32")) ∧
    (∀ cf : CudaForward Float32, ∃ row, (cf.withTable zeroQ8Row 40).embedRow 0 = .ok row ∧ row.length = 32) ∧
    (∀ mf : MetalForward Float32, ∃ row, (mf.withTable zeroQ8Row 40).embedRow 0 = .ok row ∧ row.length = 32) ∧
    (embeddingRow zeroQ8Row 1 32 : Res (List Float32)) =
      .error (.err (.internal "embedding_row Q8_0: row past end of table")) ∧
    (∀ cf : CudaForward Float32, (cf.withTable zeroQ8Row 32).embedRow 1 = panic .outOfRange) ∧
    ∀ mf : MetalForward Float32, (mf.withTable zeroQ8Row 32).embedRow 1 = panic .outOfRange := by
  -- The row of 40 is cut down to one block of 32.
  have hslice : ∀ {ε : Type}, (slice zeroQ8Row.bytes (0 * (40 / 32 * 34)) ((0 + 1) * (40 / 32 * 34)) :
      Outcome ε (List UInt8)) = .ok (List.replicate 34 0) := rfl
  obtain ⟨row, hrow, hlength⟩ := (@GgufTensorType.dequantizer_whole Float32 _ .q8_0 32 34 32 (List.replicate 34 0)
    dequantizeQ8_0 rfl rfl (by decide) (by decide)).1 (by decide)
  refine ⟨rfl, fun cf => ⟨row, ?_, hlength⟩, fun mf => ⟨row, ?_, hlength⟩, rfl, fun cf => ?_, fun mf => ?_⟩
  · change CudaForward.embedBlocks (40 / 32 * 34) dequantizeQ8_0 zeroQ8Row.bytes 0 = _
    rw [CudaForward.embedBlocks, hslice, ok_bind, hrow, Cuda.engine]
  · change MetalForward.embedBlocks (40 / 32 * 34) dequantizeQ8_0 zeroQ8Row.bytes 0 = _
    rw [MetalForward.embedBlocks, hslice, ok_bind, hrow, MetalForward.expect]
    exact fun e => nofun
  · change CudaForward.embedBlocks (32 / 32 * 34) dequantizeQ8_0 zeroQ8Row.bytes 1 = _
    have hpast : (slice zeroQ8Row.bytes (1 * (32 / 32 * 34)) ((1 + 1) * (32 / 32 * 34)) :
        Outcome CudaError (List UInt8)) = panic .outOfRange := rfl
    rw [CudaForward.embedBlocks, hpast]
    rfl
  · change MetalForward.embedBlocks (32 / 32 * 34) dequantizeQ8_0 zeroQ8Row.bytes 1 = _
    have hpast : (slice zeroQ8Row.bytes (1 * (32 / 32 * 34)) ((1 + 1) * (32 / 32 * 34)) : Res (List UInt8)) =
        panic .outOfRange := rfl
    rw [MetalForward.embedBlocks, hpast]
    rfl

end VitniTensor
