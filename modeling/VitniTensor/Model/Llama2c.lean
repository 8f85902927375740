import VitniTensor.Lib.LittleEndian
import VitniTensor.Model.Forward
import VitniTensor.Model.QuantWeights

/-!
# Loading a llama2.c blob

A header of seven `i32` and the sections of the weights behind it, cut off by one cursor. The
header is cast to `usize` as it is, so that the size products and the cursor can overflow before
a section is found to be missing.
-/

namespace VitniTensor

open Outcome

variable {F : Type} [F32 F]

/-! ### The header -/

namespace Config

/-- `i32::from_le_bytes` at `off` -/
def readI32 (blob : List UInt8) (off : Nat) : Res Int32 := do
  let b ← slice blob off (off + 4)
  pure (UInt32.ofNat (LittleEndian.ofBytes b)).toInt32

/-- `v as usize`, which extends the sign. -/
def asUsize (v : Int32) : Nat :=
  v.toInt64.toUInt64.toNat

def fromHeader (blob : List UInt8) : Res Config :=
  if blob.length < 28 then err (.invalidShape "config header < 28 bytes")
  else do
    let dim ← readI32 blob 0
    let hiddenDim ← readI32 blob 4
    let nLayers ← readI32 blob 8
    let nHeads ← readI32 blob 12
    let nKvHeads ← readI32 blob 16
    let rawVocab ← readI32 blob 20
    let seqLen ← readI32 blob 24
    pure { dim := asUsize dim, hiddenDim := asUsize hiddenDim, nLayers := asUsize nLayers,
           nHeads := asUsize nHeads, nKvHeads := asUsize nKvHeads, vocabSize := rawVocab.toInt.natAbs,
           seqLen := asUsize seqLen, sharedWeights := 0 < rawVocab }

theorem readI32_eq {blob : List UInt8} {off : Nat} (h : off + 4 ≤ blob.length) :
    readI32 blob off = .ok (UInt32.ofNat (LittleEndian.ofBytes ((blob.drop off).take 4))).toInt32 := by
  unfold readI32
  rw [slice_of_le (Nat.le_add_right off 4) h, Nat.add_sub_cancel_left]
  rfl

theorem returns_fromHeader (blob : List UInt8) : (fromHeader blob).Returns := by
  unfold fromHeader
  split
  next => exact returns_err _
  next h =>
    rw [readI32_eq (by omega), readI32_eq (by omega), readI32_eq (by omega), readI32_eq (by omega),
      readI32_eq (by omega), readI32_eq (by omega), readI32_eq (by omega)]
    exact returns_ok _

end Config

/-! ### The sections -/

namespace Weights

/-- The next `len` numbers, and the cursor behind them. -/
def take (src : List F) (p len : Nat) : Res (List F × Nat) := do
  let stop ← word (p + len)
  if stop > src.length then err (.invalidShape "weights blob truncated")
  else do
    let s ← slice src p stop
    pure (s, stop)

/-- `a * b * c` -/
def mul3 (a b c : Nat) : Res Nat := do
  let ab ← word (a * b)
  word (ab * c)

/-- `n_layers * dim * (heads * head_size)` -/
def projLen (cfg : Config) (heads headSize : Nat) : Res Nat := do
  let layers ← word (cfg.nLayers * cfg.dim)
  let out ← word (heads * headSize)
  word (layers * out)

/-- `n_layers * (n_heads * head_size) * dim` -/
def outLen (cfg : Config) (headSize : Nat) : Res Nat := do
  let heads ← word (cfg.nHeads * headSize)
  mul3 cfg.nLayers heads cfg.dim

/-- `aligned` says whether the weights start at a 4-aligned address. -/
def fromBlob (blob : List UInt8) (aligned : Bool) (cfg : Config) : Res (Weights F) :=
  if blob.length < 28 then err (.invalidShape "weights blob shorter than header")
  else do
    let src ← f32View (blob.drop 28) aligned
    let headSize ← cfg.headSize
    let len ← word (cfg.vocabSize * cfg.dim)
    let (tokenEmbeddingTable, p) ← take src 0 len
    let len ← word (cfg.nLayers * cfg.dim)
    let (rmsAttWeight, p) ← take src p len
    let len ← projLen cfg cfg.nHeads headSize
    let (wq, p) ← take src p len
    let len ← projLen cfg cfg.nKvHeads headSize
    let (wk, p) ← take src p len
    let len ← projLen cfg cfg.nKvHeads headSize
    let (wv, p) ← take src p len
    let len ← outLen cfg headSize
    let (wo, p) ← take src p len
    let len ← word (cfg.nLayers * cfg.dim)
    let (rmsFfnWeight, p) ← take src p len
    let len ← mul3 cfg.nLayers cfg.hiddenDim cfg.dim
    let (w1, p) ← take src p len
    let len ← mul3 cfg.nLayers cfg.dim cfg.hiddenDim
    let (w2, p) ← take src p len
    let len ← mul3 cfg.nLayers cfg.hiddenDim cfg.dim
    let (w3, p) ← take src p len
    let (rmsFinalWeight, p) ← take src p cfg.dim
    -- the two frequency tables are skipped
    let freqs ← word (cfg.seqLen * headSize)
    let p ← word (p + freqs / 2)
    let p ← word (p + freqs / 2)
    let wcls ← if cfg.sharedWeights then pure tokenEmbeddingTable else do
      let len ← word (cfg.vocabSize * cfg.dim)
      let (wcls, _) ← take src p len
      pure wcls
    pure { tokenEmbeddingTable, rmsAttWeight, wq, wk, wv, wo, rmsFfnWeight, w1, w2, w3, rmsFinalWeight, wcls }

end Weights

/-- The header, and the weights with it. -/
def loadBlob (blob : List UInt8) (aligned : Bool) : Res (Config × Weights F) := do
  let cfg ← Config.fromHeader blob
  let weights ← Weights.fromBlob blob aligned cfg
  pure (cfg, weights)

/-! ### When nothing overflows -/

namespace Weights

/-- A length computed by checked products: the partial products, and the last one. -/
structure Computes (size : Res Nat) (parts : List Nat) (n : Nat) : Prop where
  fits : (∀ v ∈ parts, v < wordSize) → size = .ok n
  large : ¬(∀ v ∈ parts, v < wordSize) → size = panic .overflow

theorem computes_word (n : Nat) : Computes (word n) [n] n := by
  constructor
  · intro h
    exact word_of_lt (h n List.mem_cons_self)
  · intro h
    rw [List.forall_mem_singleton] at h
    exact if_neg h

/-- A further product. -/
theorem Computes.bind {size : Res Nat} {parts parts' : List Nat} {n n' : Nat} {f : Nat → Res Nat}
    (h : Computes size parts n) (hf : Computes (f n) parts' n') : Computes (size >>= f) (parts ++ parts') n' := by
  constructor
  · intro hall
    obtain ⟨hparts, hparts'⟩ := List.forall_mem_append.mp hall
    rw [h.fits hparts, ok_bind, hf.fits hparts']
  · intro hnot
    rw [List.forall_mem_append] at hnot
    by_cases hparts : ∀ v ∈ parts, v < wordSize
    · rw [h.fits hparts, ok_bind, hf.large fun hparts' => hnot ⟨hparts, hparts'⟩]
    · rw [h.large hparts, error_bind]

theorem computes_mul3 (a b c : Nat) : Computes (mul3 a b c) [a * b, a * b * c] (a * b * c) :=
  (computes_word (a * b)).bind (computes_word (a * b * c))

theorem computes_projLen (cfg : Config) (heads headSize : Nat) :
    Computes (projLen cfg heads headSize)
      [cfg.nLayers * cfg.dim, heads * headSize, cfg.nLayers * cfg.dim * (heads * headSize)]
      (cfg.nLayers * cfg.dim * (heads * headSize)) :=
  (computes_word _).bind ((computes_word _).bind (computes_word _))

theorem computes_outLen (cfg : Config) (headSize : Nat) :
    Computes (outLen cfg headSize)
      [cfg.nHeads * headSize, cfg.nLayers * (cfg.nHeads * headSize), cfg.nLayers * (cfg.nHeads * headSize) * cfg.dim]
      (cfg.nLayers * (cfg.nHeads * headSize) * cfg.dim) :=
  (computes_word _).bind (computes_mul3 _ _ _)

omit [F32 F] in
theorem returns_take {β : Type} (src : List F) (p n : Nat) (k : List F × Nat → Res β) :
    (take src p n >>= k).Returns ↔
      p + n < wordSize ∧ (p + n ≤ src.length → (k ((src.drop p).take n, p + n)).Returns) := by
  unfold take
  by_cases hstop : p + n < wordSize
  · rw [word_of_lt hstop, ok_bind]
    by_cases hin : p + n ≤ src.length
    · rw [if_neg (Nat.not_lt.mpr hin), slice_of_le (Nat.le_add_right p n) hin, Nat.add_sub_cancel_left]
      exact ⟨fun h => ⟨hstop, fun _ => h⟩, fun h => h.2 hin⟩
    · rw [if_pos (Nat.lt_of_not_le hin)]
      exact ⟨fun _ => ⟨hstop, fun h => absurd h hin⟩, fun _ => returns_err _⟩
  · have hpanic : (word (p + n) : Res Nat) = panic .overflow := if_neg hstop
    rw [hpanic]
    exact ⟨fun h => absurd h (not_returns_panic _), fun h => absurd h.1 hstop⟩

/-- A section: the partial products of its length, and the length. -/
abbrev Section := List Nat × Nat

/-- The sections are cut off a blob of `len` numbers from `p` on without an overflow: each has
products and an end below `2^64`, unless an earlier one is missing from the blob. Behind the last
one `tail` has to hold. -/
def SectionsFit (len : Nat) (tail : Nat → Prop) : List Section → Nat → Prop
  | [], p => tail p
  | (parts, n) :: rest, p =>
    (∀ v ∈ parts, v < wordSize) ∧ p + n < wordSize ∧ (p + n ≤ len → SectionsFit len tail rest (p + n))

omit [F32 F] in
/-- One section. -/
theorem returns_section {β : Type} {size : Res Nat} {parts : List Nat} {n p : Nat} {src : List F}
    {k : List F × Nat → Res β} {tail : Nat → Prop} {rest : List Section} (hsize : Computes size parts n)
    (hrest : (k ((src.drop p).take n, p + n)).Returns ↔ SectionsFit src.length tail rest (p + n)) :
    (size >>= fun len => take src p len >>= k).Returns ↔ SectionsFit src.length tail ((parts, n) :: rest) p := by
  rw [SectionsFit, ← hrest]
  by_cases hparts : ∀ v ∈ parts, v < wordSize
  · rw [hsize.fits hparts, ok_bind, returns_take]
    exact ⟨fun h => ⟨hparts, h⟩, fun h => h.2⟩
  · rw [hsize.large hparts]
    exact ⟨fun h => absurd h (not_returns_panic _), fun h => absurd h.1 hparts⟩

/-- The eleven sections before the frequency tables. -/
def sections (cfg : Config) (headSize : Nat) : List Section :=
  let norm := cfg.nLayers * cfg.dim
  let heads := cfg.nHeads * headSize
  let kvHeads := cfg.nKvHeads * headSize
  let up := ([cfg.nLayers * cfg.hiddenDim, cfg.nLayers * cfg.hiddenDim * cfg.dim], cfg.nLayers * cfg.hiddenDim * cfg.dim)
  [([cfg.vocabSize * cfg.dim], cfg.vocabSize * cfg.dim), ([norm], norm), ([norm, heads, norm * heads], norm * heads),
    ([norm, kvHeads, norm * kvHeads], norm * kvHeads), ([norm, kvHeads, norm * kvHeads], norm * kvHeads),
    ([heads, cfg.nLayers * heads, cfg.nLayers * heads * cfg.dim], cfg.nLayers * heads * cfg.dim), ([norm], norm), up,
    ([norm, norm * cfg.hiddenDim], norm * cfg.hiddenDim), up, ([], cfg.dim)]

/-- The tables, and the classifier behind them. -/
def TailFits (cfg : Config) (headSize p : Nat) : Prop :=
  let freqs := cfg.seqLen * headSize / 2
  cfg.seqLen * headSize < wordSize ∧ p + freqs + freqs < wordSize ∧
    (cfg.sharedWeights = false → p + freqs + freqs + cfg.vocabSize * cfg.dim < wordSize)

/-- **The sizes of a header** that a blob of `len` numbers is cut up with, without a panic. -/
def Fit (cfg : Config) (len : Nat) : Prop :=
  0 < cfg.nHeads ∧
    SectionsFit len (TailFits cfg (cfg.dim / cfg.nHeads)) (sections cfg (cfg.dim / cfg.nHeads)) 0

theorem returns_word_bind {β : Type} {n : Nat} {k : Nat → Res β} :
    (word n >>= k).Returns ↔ n < wordSize ∧ (k n).Returns := by
  by_cases h : n < wordSize
  · rw [word_of_lt h, ok_bind]
    exact ⟨fun hk => ⟨h, hk⟩, fun hk => hk.2⟩
  · have hpanic : (word n : Res Nat) = panic .overflow := if_neg h
    rw [hpanic]
    exact ⟨fun hk => absurd hk (not_returns_panic _), fun hk => absurd hk.1 h⟩

omit [F32 F] in
/-- The end of the cut. -/
private theorem returns_tail {β : Type} (cfg : Config) (headSize p : Nat) (src table : List F) (k : List F → β) :
    (do let freqs ← word (cfg.seqLen * headSize)
        let p ← word (p + freqs / 2)
        let p ← word (p + freqs / 2)
        let wcls ← if cfg.sharedWeights then pure table else do
          let len ← word (cfg.vocabSize * cfg.dim)
          let (wcls, _) ← take src p len
          pure wcls
        pure (k wcls) : Res β).Returns ↔ TailFits cfg headSize p := by
  unfold TailFits
  dsimp only
  rw [returns_word_bind, returns_word_bind, returns_word_bind]
  cases hshared : cfg.sharedWeights with
  | true =>
    rw [if_pos rfl]
    exact ⟨fun h => ⟨h.1, h.2.2.1, fun hf => nomatch hf⟩, fun h => ⟨h.1, by omega, h.2.1, returns_ok _⟩⟩
  | false =>
    rw [if_neg Bool.false_ne_true, returns_word_bind, returns_take]
    constructor
    · rintro ⟨hfreqs, -, htables, -, hwcls, -⟩
      exact ⟨hfreqs, htables, fun _ => hwcls⟩
    · rintro ⟨hfreqs, htables, hwcls⟩
      have hend := hwcls rfl
      exact ⟨hfreqs, by omega, htables, by omega, hend, fun _ => returns_ok _⟩

theorem returns_fromBlob {blob : List UInt8} {aligned : Bool} {cfg : Config} (hheader : 28 ≤ blob.length) :
    (fromBlob blob aligned cfg : Res (Weights F)).Returns ↔
      (blob.length % 4 = 0 → aligned = true → Fit cfg ((blob.length - 28) / 4)) := by
  unfold fromBlob f32View
  rw [if_neg (Nat.not_lt.mpr hheader), List.length_drop]
  by_cases hwhole : blob.length % 4 = 0
  · cases aligned with
    | false =>
      rw [if_neg (by omega)]
      exact ⟨fun _ _ h => (nomatch h), fun _ => returns_err _⟩
    | true =>
      rw [if_neg (by omega), Bool.not_true, if_neg Bool.false_ne_true, ok_bind]
      have hcondition : (blob.length % 4 = 0 → true = true → Fit cfg ((blob.length - 28) / 4)) ↔
          Fit cfg ((blob.length - 28) / 4) :=
        ⟨fun h => h hwhole rfl, fun h _ _ => h⟩
      rw [hcondition]
      unfold Fit Config.headSize
      rcases Nat.eq_zero_or_pos cfg.nHeads with hzero | hpos
      · have hpanic : (div cfg.dim cfg.nHeads : Res Nat) = panic .divideByZero := if_pos hzero
        rw [hpanic]
        exact ⟨fun h => absurd h (not_returns_panic _), fun h => absurd hzero (Nat.ne_of_gt h.1)⟩
      · have hlength : (blob.length - 28) / 4 = ((blocksOf 4 (blob.drop 28)).map (f32Le : _ → F)).length := by
          rw [List.length_map, length_blocksOf, List.length_drop]
        rw [div_of_pos hpos, ok_bind, hlength, and_iff_right hpos]
        generalize (blocksOf 4 (blob.drop 28)).map (f32Le : _ → F) = src
        generalize cfg.dim / cfg.nHeads = headSize
        -- one step for each section, with the partial products of its length
        apply returns_section (computes_word _)
        apply returns_section (computes_word _)
        apply returns_section (computes_projLen _ _ _)
        apply returns_section (computes_projLen _ _ _)
        apply returns_section (computes_projLen _ _ _)
        apply returns_section (computes_outLen _ _)
        apply returns_section (computes_word _)
        apply returns_section (computes_mul3 _ _ _)
        apply returns_section (computes_mul3 _ _ _)
        apply returns_section (computes_mul3 _ _ _)
        dsimp only
        rw [returns_take, SectionsFit, SectionsFit]
        dsimp only
        rw [returns_tail]
        exact ⟨fun h => ⟨fun v hv => absurd hv List.not_mem_nil, h⟩, fun h => h.2⟩
  · rw [if_pos (by omega)]
    exact ⟨fun _ h => absurd h hwhole, fun _ => returns_err _⟩

end Weights

/-- **When the loader is safe.** Exactly when the sizes of the header fit, or the weights are no
aligned floats. -/
theorem returns_loadBlob (blob : List UInt8) (aligned : Bool) :
    (loadBlob blob aligned : Res (Config × Weights F)).Returns ↔
      ∀ cfg, Config.fromHeader blob = .ok cfg → blob.length % 4 = 0 → aligned = true →
        Weights.Fit cfg ((blob.length - 28) / 4) := by
  unfold loadBlob
  cases hcfg : Config.fromHeader blob with
  | error stop =>
    obtain ⟨e, rfl⟩ := (Config.returns_fromHeader blob).err_of_error hcfg
    exact ⟨fun _ _ h => (nomatch h), fun _ => returns_err _⟩
  | ok cfg =>
    have hheader : 28 ≤ blob.length := by
      unfold Config.fromHeader at hcfg
      split at hcfg
      next => cases hcfg
      next h => exact Nat.le_of_not_lt h
    rw [ok_bind]
    have hpure : ((Weights.fromBlob blob aligned cfg : Res (Weights F)) >>= fun weights => pure (cfg, weights)).Returns ↔
        (Weights.fromBlob blob aligned cfg : Res (Weights F)).Returns := by
      cases (Weights.fromBlob blob aligned cfg : Res (Weights F)) with
      | error stop => simp [Returns]
      | ok weights => exact ⟨fun _ => returns_ok _, fun _ => returns_ok _⟩
    rw [hpure, Weights.returns_fromBlob hheader]
    exact ⟨fun h cfg' heq => Except.ok.inj heq ▸ h, fun h => h cfg rfl⟩

/-- No heads, and a negative dimension. -/
theorem headers_panic :
    (loadBlob (List.replicate 28 0) true : Res (Config × Weights Cost)) = panic .divideByZero ∧
      (loadBlob (List.replicate 4 0xFF ++ List.replicate 8 0 ++ [1, 0, 0, 0, 1, 0, 0, 0, 2, 0, 0, 0, 1, 0, 0, 0]) true :
        Res (Config × Weights Cost)) = panic .overflow := by
  constructor
  · rfl
  · rfl

end VitniTensor
