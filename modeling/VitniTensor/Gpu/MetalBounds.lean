import VitniTensor.Gpu.MetalEncodes
import VitniTensor.Gpu.Kernels
import VitniTensor.Lib.Emits

/-!
# Fixed storage of the Metal kernels

The subscripts that the dispatches of a step compute of the arrays `scores[512]`, `parts[64]` and
`chunk_sums[64]`, and the widths and positions that keep them inside.
-/

namespace VitniTensor

open Outcome Subscript Gpu

variable {F : Type}

namespace Metal

/-! ### The kernels -/

/-- One head; the cache is not storage of the kernel. -/
def attention (headSize pos : UInt32) : Res Unit :=
  headScores 512 headSize (pos + 1) (fun _ _ => .ok ()) (fun _ _ => .ok ())

/-- One row, and with the residual. -/
def q6kIntegerDot (dims : Dims) : Res Unit :=
  superBlockParts 64 dims.nsuper

/-- One row, and with the residual. -/
def q4kLinear (dims : Dims) : Res Unit :=
  superBlockSums 64 dims.k dims.nsuper

def q80Dot (dims : Dims) : Res Unit :=
  chunkSums 64 dims.k

def q50Dot (dims : Dims) : Res Unit :=
  chunkSums 64 dims.k

/-- The subscripts of a dispatch, thread by thread. The kernels of the other pipelines have lanes and
group sums only, which are indexed by constant loops. -/
def Dispatch.subscripts : Dispatch F → Res Unit
  | .linear pl _ _ _ _ _ dims => sweep dims.n.toNat fun _ =>
      match pl with
      | .q4k => q4kLinear dims
      | .q8_0 => q80Dot dims
      | .q5_0 => q50Dot dims
  | .dot .q6kDot _ _ _ _ dims => sweep dims.n.toNat fun _ => q6kIntegerDot dims
  | .attention _ _ _ nHeads headSize _ _ pos => sweep nHeads.toNat fun _ => Metal.attention headSize pos
  | _ => .ok ()

/-- The row of a linear is not too wide for the storage of its kernel, if there is a row. -/
def WBuf.Fits (wt : WBuf) (regime : UInt8) : Prop :=
  0 < wt.n % 2 ^ 32 →
    if wt.kind = 2 ∨ wt.kind = 3 then wt.k % 2 ^ 32 ≤ 524288
    else if regime = 3 then True
    else if wt.kind = 1 then wt.k / 256 % 2 ^ 32 ≤ 64
    else superBlockCount (wt.k % 2 ^ 32) (wt.k / 256 % 2 ^ 32) ≤ 64

def Layer.linears (l : Layer F) : List WBuf :=
  [l.wq, l.wk, l.wv, l.wo, l.w1, l.w3, l.w2]

/-! ### One dispatch -/

/-- Threads that all do the same. -/
theorem threads_ok {n : UInt32} {x : Res Unit} :
    sweep n.toNat (fun _ => x) = .ok () ↔ (0 < n.toNat → x = .ok ()) := by
  rw [sweep_ok]
  exact ⟨fun h hpos => h 0 hpos, fun h i hi => h (Nat.zero_lt_of_lt hi)⟩

theorem quantize_inside {pl : Quantize} {x : Buf} {nsuper : UInt32} :
    (Dispatch.quantize pl x nsuper : Dispatch F).subscripts = .ok () :=
  rfl

theorem linear_inside {pl : Linear} {acc : Bool} {x : Buf} {w : List UInt8} {out : Buf} {off : Nat} {dims : Dims} :
    (Dispatch.linear pl acc x w out off dims : Dispatch F).subscripts = .ok () ↔
      (0 < dims.n.toNat → if pl = .q4k then superBlockCount dims.k.toNat dims.nsuper.toNat ≤ 64
        else dims.k.toNat ≤ 524288) := by
  have hsize : 64 < 2 ^ 16 := by decide
  cases pl with
  | q4k => exact threads_ok.trans (imp_congr_right fun _ => superBlockSums_ok hsize)
  | q8_0 | q5_0 => exact threads_ok.trans (imp_congr_right fun _ => chunkSums_ok hsize)

theorem dot_inside {pl : Dot} {acc : Bool} {w : List UInt8} {out : Buf} {off : Nat} {dims : Dims} :
    (Dispatch.dot pl acc w out off dims : Dispatch F).subscripts = .ok () ↔
      (0 < dims.n.toNat → pl = .q6kDot → dims.nsuper.toNat ≤ 64) := by
  cases pl with
  | q6kDot =>
    refine threads_ok.trans (imp_congr_right fun _ => superBlockParts_ok.trans ?_)
    exact (true_imp_iff).symm.trans (imp_congr_left (iff_of_true trivial rfl))
  | q4kRs | q6kRs => simp [Dispatch.subscripts]

theorem attention_inside {q : Buf} {layer : Nat} {out : Buf} {nHeads headSize kvDim kvMul pos : UInt32} :
    (Dispatch.attention q layer out nHeads headSize kvDim kvMul pos : Dispatch F).subscripts = .ok () ↔
      (0 < nHeads.toNat → (pos + 1).toNat ≤ 512) := by
  refine threads_ok.trans (imp_congr_right fun _ => headScores_ok.trans ?_)
  exact and_iff_left fun _ _ _ _ => ⟨rfl, rfl⟩

end Metal

namespace MetalForward

open Metal

variable (mf : MetalForward F)

theorem linearInto_inside {acc : Bool} {input : Buf} {wt : WBuf} {out : Buf} {off : Nat} :
    (∀ d ∈ mf.linearInto acc input wt out off, d.subscripts = .ok ()) ↔ wt.Fits mf.regime := by
  unfold linearInto WBuf.Fits
  simp only [← UInt32.toNat_ofNat']
  by_cases h2 : wt.kind = 2
  · rw [if_pos h2, List.forall_mem_singleton, linear_inside, if_neg (by decide), if_pos (.inl h2)]
  by_cases h3 : wt.kind = 3
  · rw [if_neg h2, if_pos h3, List.forall_mem_singleton, linear_inside, if_neg (by decide), if_pos (.inr h3)]
  rw [if_neg h2, if_neg h3, if_neg (not_or.mpr ⟨h2, h3⟩)]
  by_cases hregime : mf.regime = 3
  · by_cases h1 : wt.kind = 1 <;> simp [hregime, h1, quantize_inside, dot_inside]
  rw [if_neg hregime, if_neg hregime]
  by_cases h1 : wt.kind = 1
  · rw [if_pos h1, if_pos h1]
    simp [quantize_inside, dot_inside]
  · rw [if_neg h1, if_neg h1, List.forall_mem_singleton, linear_inside, if_pos rfl]

/-! ### A run -/

/-- A step, and the command buffer that it commits; nothing is committed where the host stops. -/
def submit [F32 F] (token : UInt32) (pos : Nat) : Exec (List (Dispatch F)) Error Unit := do
  let sub ← Exec.lift (mf.step token pos)
  Exec.emit sub.commands

/-- The number of tokens that the host looks up before the first one that it has no row for. -/
def looked [F32 F] (tokens : List UInt32) : Nat :=
  (tokens.takeWhile fun token => (mf.embedRow token.toNat).isOk).length

/-- The sizes of a run over `total` positions do not exceed the storage of the kernels. -/
structure Fits (total : Nat) : Prop where
  scores : 0 < mf.nLayers → 0 < mf.nHeads % 2 ^ 32 → total ≤ 512
  layers : ∀ l ∈ mf.layers.take mf.nLayers, ∀ wt ∈ l.linears, wt.Fits mf.regime
  head : mf.wcls.Fits mf.regime

/-- No dispatch of a run that is fed these tokens has a subscript outside of its array. -/
def StaysInside [F32 F] (tokens : List UInt32) : Prop :=
  ∀ d ∈ ((Exec.feed mf.submit tokens).eval []).2, d.subscripts = .ok ()

variable {mf}

theorem addBiases_inside {layer koff : Nat} {l : Layer F} {cmds : List (Dispatch F)}
    (h : mf.addBiases layer koff l = .ok cmds) : ∀ d ∈ cmds, d.subscripts = .ok () := by
  unfold addBiases at h
  split at h
  next =>
    obtain ⟨bq, -, h⟩ := bind_eq_ok.mp h
    obtain ⟨bk, -, h⟩ := bind_eq_ok.mp h
    obtain ⟨bv, -, h⟩ := bind_eq_ok.mp h
    cases h
    intro d hd
    simp only [List.mem_cons, List.not_mem_nil, or_false] at hd
    rcases hd with rfl | rfl | rfl <;> rfl
  next =>
    cases h
    exact fun d hd => nomatch hd

/-- The subscripts of a layer, whatever its biases. -/
theorem layerCommands_inside {pos koff layer : Nat} {l : Layer F} {cmds : List (Dispatch F)}
    (hl : mf.layers[layer]? = some l) (h : mf.layerCommands pos koff layer = .ok cmds) :
    (∀ d ∈ cmds, d.subscripts = .ok ()) ↔
      (0 < mf.nHeads % 2 ^ 32 → (pos + 1) % 2 ^ 32 ≤ 512) ∧ ∀ wt ∈ l.linears, wt.Fits mf.regime := by
  obtain ⟨l', hl', h⟩ := bind_eq_ok.mp h
  obtain rfl : l' = l := by
    have hsame := index_eq_ok.mp hl'
    rw [hl] at hsame
    exact (Option.some.inj hsame).symm
  obtain ⟨attention, hattention, h⟩ := bind_eq_ok.mp h
  cases h
  obtain ⟨biases, hbiases, hattention⟩ := bind_eq_ok.mp hattention
  obtain ⟨nKv, -, hattention⟩ := bind_eq_ok.mp hattention
  cases hattention
  have hnorm : ∀ (x : Buf) (ws : List F) (out : Buf) (feat rows : UInt32) (eps : F),
      (Dispatch.rms x ws out feat rows eps).subscripts = .ok () := fun _ _ _ _ _ _ => rfl
  have hrope : ∀ (neox : Bool) (x : Buf) (off : Nat) (nHeads headSize : UInt32),
      (Dispatch.rope neox x off nHeads headSize : Dispatch F).subscripts = .ok () := fun _ _ _ _ _ => rfl
  have hsilu : ∀ (gate up out : Buf) (n : UInt32),
      (Dispatch.siluMul gate up out n : Dispatch F).subscripts = .ok () := fun _ _ _ _ => rfl
  have hscores : (UInt32.ofNat pos + 1).toNat = (pos + 1) % 2 ^ 32 := by
    have hone : (1 : UInt32).toNat = 1 := rfl
    rw [UInt32.toNat_add, UInt32.toNat_ofNat', hone, Nat.mod_add_mod]
  have hbias := addBiases_inside hbiases
  simp only [feedForwardCommands, lin, linAcc, List.forall_mem_append, List.forall_mem_cons,
    List.not_mem_nil, false_imp_iff, implies_true, linearInto_inside, attention_inside, hnorm, hrope, hsilu,
    hscores, UInt32.toNat_ofNat', true_and, and_true, Layer.linears]
  constructor
  · rintro ⟨⟨⟨⟨⟨⟨hq, hk⟩, hv⟩, -⟩, hattention⟩, ho⟩, ⟨h1, h3⟩, h2⟩
    exact ⟨hattention, hq, hk, hv, ho, h1, h3, h2⟩
  · rintro ⟨hattention, hq, hk, hv, ho, h1, h3, h2⟩
    exact ⟨⟨⟨⟨⟨⟨hq, hk⟩, hv⟩, hbias⟩, hattention⟩, ho⟩, ⟨h1, h3⟩, h2⟩

/-- The dispatches of a step are those of its layers and of the head. -/
theorem commands_inside {pos : Nat} {cmds : List (Dispatch F)} (h : mf.commands pos = .ok cmds) :
    (∀ d ∈ cmds, d.subscripts = .ok ()) ↔
      (0 < mf.nLayers → 0 < mf.nHeads % 2 ^ 32 → (pos + 1) % 2 ^ 32 ≤ 512) ∧
      (∀ l ∈ mf.layers.take mf.nLayers, ∀ wt ∈ l.linears, wt.Fits mf.regime) ∧ mf.wcls.Fits mf.regime := by
  obtain ⟨row, -, h⟩ := bind_eq_ok.mp h
  obtain ⟨koff, -, h⟩ := bind_eq_ok.mp h
  obtain ⟨body, hbody, h⟩ := bind_eq_ok.mp h
  cases h
  have hlayer : ∀ i < mf.nLayers, ∃ l part, mf.layers[i]? = some l ∧
      mf.layerCommands pos koff i = .ok part := by
    intro i hi
    obtain ⟨part, hcmds⟩ := forRange_append_ok.mp ⟨body, hbody⟩ i hi
    obtain ⟨l, hl, -⟩ := layerCommands_ok.mp ⟨_, hcmds⟩
    exact ⟨l, part, hl, hcmds⟩
  have hbody : (∀ d ∈ body, d.subscripts = .ok ()) ↔
      (0 < mf.nLayers → 0 < mf.nHeads % 2 ^ 32 → (pos + 1) % 2 ^ 32 ≤ 512) ∧
      (∀ l ∈ mf.layers.take mf.nLayers, ∀ wt ∈ l.linears, wt.Fits mf.regime) := by
    simp only [mem_forRange_append hbody]
    constructor
    · intro hinside
      have heach : ∀ i < mf.nLayers, ∃ l, mf.layers[i]? = some l ∧
          (0 < mf.nHeads % 2 ^ 32 → (pos + 1) % 2 ^ 32 ≤ 512) ∧ ∀ wt ∈ l.linears, wt.Fits mf.regime := by
        intro i hi
        obtain ⟨l, part, hl, hcmds⟩ := hlayer i hi
        exact ⟨l, hl, (layerCommands_inside hl hcmds).mp fun d hd => hinside d ⟨i, hi, part, hcmds, hd⟩⟩
      refine ⟨fun hsome => ?_, fun l hl => ?_⟩
      · obtain ⟨l, -, hscores, -⟩ := heach 0 hsome
        exact hscores
      · obtain ⟨i, hi, hget⟩ := mem_layers.mp hl
        obtain ⟨l', hl', -, hlinears⟩ := heach i hi
        rw [hget] at hl'
        cases hl'
        exact hlinears
    · rintro ⟨hscores, hlinears⟩ d ⟨i, hi, part, hcmds, hd⟩
      obtain ⟨l, part', hl, -⟩ := hlayer i hi
      exact (layerCommands_inside hl hcmds).mpr
        ⟨hscores (Nat.zero_lt_of_lt hi), hlinears l (mem_layers.mpr ⟨i, hi, hl⟩)⟩ d hd
  have hnorm : ∀ (ws : List F) (feat : UInt32), (Dispatch.rms .bX ws .bXb feat 1 mf.rmsEps).subscripts = .ok () :=
    fun _ _ => rfl
  simp only [List.forall_mem_append, List.forall_mem_cons, hbody, hnorm, lin,
    linearInto_inside, true_and, and_assoc]

section Run

variable [F32 F]

/-- When a step is handed to the device. -/
theorem step_returns {token : UInt32} {pos : Nat} :
    (∃ sub, mf.step token pos = .ok sub) ↔ mf.headSize / 2 * 4 < 2 ^ 63 ∧ (mf.embedRow token.toNat).isOk = true ∧
      pos * mf.kvDim * 4 < wordSize ∧ mf.Encodes := by
  rw [Exec.isOk_iff, ← commands_ok]
  constructor
  · rintro ⟨sub, hstep⟩
    obtain ⟨htables, hrow, hcmds⟩ := step_ok.mp hstep
    exact ⟨(mf.ropeCache_eq_ok.mp htables).1, ⟨_, hrow⟩, _, hcmds⟩
  · rintro ⟨hmemory, ⟨row, hrow⟩, cmds, hcmds⟩
    exact ⟨⟨_, _, row, cmds⟩, step_ok.mpr ⟨mf.ropeCache_eq_ok.mpr ⟨hmemory, rfl⟩, hrow, hcmds⟩⟩

/-- What a step commits. -/
theorem submit_emits (token : UInt32) (pos : Nat) :
    Exec.Emits (mf.submit token pos) ((mf.step token pos).map fun _ => ())
      (match mf.step token pos with | .ok sub => sub.commands | .error _ => []) := by
  unfold submit
  cases mf.step token pos with
  | ok sub => exact (Exec.Emits.of_lift (.ok sub)).bind (Exec.Emits.of_emit sub.commands)
  | error s => exact (Exec.Emits.of_lift (.error s)).stop

/-- The dispatches of a run are those of the steps up to the first one that the host does not get through. -/
theorem mem_run {tokens : List UInt32} {d : Dispatch F} :
    d ∈ ((Exec.feed mf.submit tokens).eval []).2 ↔ ∃ pos token sub, tokens[pos]? = some token ∧
      mf.step token pos = .ok sub ∧ d ∈ sub.commands ∧
      ∀ j < pos, ∀ earlier, tokens[j]? = some earlier → ∃ sub, mf.step earlier j = .ok sub := by
  have hok : ∀ token pos, (mf.step token pos).map (fun _ => ()) = .ok () ↔ ∃ sub, mf.step token pos = .ok sub := by
    intro token pos
    cases mf.step token pos with
    | ok sub => exact iff_of_true rfl ⟨sub, rfl⟩
    | error s => exact iff_of_false (fun h => nomatch h) (fun ⟨_, h⟩ => nomatch h)
  rw [Exec.mem_feed submit_emits]
  simp only [hok]
  constructor
  · rintro ⟨pos, token, htoken, hbefore, hd⟩
    cases hstep : mf.step token pos with
    | ok sub =>
      rw [hstep] at hd
      exact ⟨pos, token, sub, htoken, hstep, hd, hbefore⟩
    | error s =>
      rw [hstep] at hd
      exact nomatch hd
  · rintro ⟨pos, token, sub, htoken, hstep, hd, hbefore⟩
    refine ⟨pos, token, htoken, hbefore, ?_⟩
    rw [hstep]
    exact hd

/-- Where the host gets through the layers, it commits a step for every token that it looks up. -/
theorem committed {tokens : List UInt32} {pos : Nat} (hpos : pos < mf.looked tokens)
    (hmemory : mf.headSize / 2 * 4 < 2 ^ 63) (hencodes : mf.Encodes)
    (hoffset : ∀ j ≤ pos, j * mf.kvDim * 4 < wordSize) (hinside : mf.StaysInside tokens) :
    ∃ cmds, mf.commands pos = .ok cmds ∧ ∀ d ∈ cmds, d.subscripts = .ok () := by
  obtain ⟨hlength, hrows⟩ := Exec.lt_takeWhile.mp hpos
  have hstep : ∀ j ≤ pos, ∀ token, tokens[j]? = some token → ∃ sub, mf.step token j = .ok sub :=
    fun j hj token htoken => step_returns.mpr ⟨hmemory, hrows j hj token htoken, hoffset j hj, hencodes⟩
  have htoken := List.getElem?_eq_getElem hlength
  obtain ⟨sub, hsub⟩ := hstep pos (Nat.le_refl pos) _ htoken
  refine ⟨sub.commands, (step_ok.mp hsub).2.2, fun d hd => hinside d (mem_run.mpr ?_)⟩
  exact ⟨pos, _, sub, htoken, hsub, hd, fun j hj earlier hearlier => hstep j (Nat.le_of_lt hj) earlier hearlier⟩

/-- A run stays inside exactly if the host gets through no step, or its sizes fit. -/
theorem staysInside_iff {tokens : List UInt32}
    (hoffset : 0 < mf.nLayers → ∀ pos < tokens.length, pos * mf.kvDim * 4 < wordSize) :
    mf.StaysInside tokens ↔ (0 < mf.looked tokens → mf.headSize / 2 * 4 < 2 ^ 63 → mf.Encodes →
      mf.Fits (mf.looked tokens)) := by
  constructor
  · intro hinside hsome hmemory hencodes
    have hzero : ∀ j ≤ 0, j * mf.kvDim * 4 < wordSize := by
      intro j hj
      rw [Nat.le_zero.mp hj, Nat.zero_mul, Nat.zero_mul]
      decide
    obtain ⟨cmds, hcmds, hall⟩ := committed hsome hmemory hencodes hzero hinside
    obtain ⟨-, hlayers, hhead⟩ := (commands_inside hcmds).mp hall
    refine ⟨fun hsomeLayer hheads => ?_, hlayers, hhead⟩
    by_contra hlong
    have hlength : mf.looked tokens ≤ tokens.length := (List.takeWhile_sublist _).length_le
    obtain ⟨cmds, hcmds, hall⟩ := @committed F mf _ tokens 512 (by omega) hmemory hencodes
      (fun j hj => hoffset hsomeLayer j (by omega)) hinside
    have hscores := ((commands_inside hcmds).mp hall).1 hsomeLayer hheads
    omega
  · intro hfits d hd
    obtain ⟨pos, token, sub, htoken, hstep, hd, hbefore⟩ := mem_run.mp hd
    have hreturns := fun j hj earlier hearlier => step_returns.mp (hbefore j hj earlier hearlier)
    obtain ⟨hmemory, hrow, -, hencodes⟩ := step_returns.mp ⟨sub, hstep⟩
    have hlooked : pos < mf.looked tokens := by
      refine Exec.lt_takeWhile.mpr ⟨(List.getElem?_eq_some_iff.mp htoken).1, fun j hj earlier hearlier => ?_⟩
      rcases Nat.eq_or_lt_of_le hj with rfl | hj
      · cases htoken.symm.trans hearlier
        exact hrow
      · exact (hreturns j hj earlier hearlier).2.1
    have hfits := hfits (Nat.zero_lt_of_lt hlooked) hmemory hencodes
    refine (commands_inside (step_ok.mp hstep).2.2).mpr ⟨fun hsomeLayer hheads => ?_, hfits.layers, hfits.head⟩ d hd
    have hshort := hfits.scores hsomeLayer hheads
    omega

end Run

end MetalForward

end VitniTensor
