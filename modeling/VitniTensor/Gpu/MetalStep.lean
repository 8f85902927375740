import VitniTensor.Gpu.Composition
import VitniTensor.Gpu.Metal

/-!
# The Metal step

Each kernel is taken as the operation of the engine that it documents. The command buffer of a
step then leaves a composition in every buffer, to be compared with that of the quantized
forward pass.
-/

namespace VitniTensor

open Outcome

variable {F : Type} [F32 F]

namespace Metal

/-! ### What the kernels document -/

def Linear.op : Linear → LinearOp
  | q4k => .q4k
  | q8_0 => .q8_0
  | q5_0 => .q5_0

/-- A dot pipeline on what its own quantizer left is an integer linear. -/
def Dot.op : Dot → Quantize → Option LinearOp
  | q6kDot, .q6kQuant => some .q6kInteger
  | q4kRs, .q8Quant => some .q4kIntegerRs
  | q6kRs, .q8Quant => some .q6kIntegerRs
  | _, _ => none

/-- What the kernels of a step read and none writes: the tables of the rotation, and the size of `b_att`. -/
structure Given (F : Type) where
  cos : List F
  sin : List F
  att : Nat

/-- The pair at `i` of head `h`. Its indices are `uint`s. -/
def turnAt (neox : Bool) (headSize h i : UInt32) (angle : F × F) : PairTurn F :=
  let base := h * headSize
  if neox then ⟨(base + i).toNat, (base + i + headSize / 2).toNat, angle.1, angle.2⟩
  else ⟨(base + 2 * i).toNat, (base + 2 * i + 1).toNat, angle.1, angle.2⟩

/-- `n` heads, rotated by the tables. What a kernel reads past their ends is not known. -/
def Given.rotated (g : Given F) (neox : Bool) (n headSize : UInt32) (x : Value F) : Value F :=
  if headSize.toNat / 2 ≤ min g.cos.length g.sin.length then
    .rotate ((List.range n.toNat).flatMap fun h => (List.range (headSize.toNat / 2)).map fun i =>
      turnAt neox headSize (.ofNat h) (.ofNat i) (g.cos.getD i F32.zero, g.sin.getD i F32.zero)) x
  else .unknown

/-- The buffers, by byte offset. -/
structure Store (F : Type) where
  bufs : Buf → Nat → Value F
  q8 : Quantize × Value F
  given : Given F

namespace Store

variable (s : Store F)

/-- The buffers with `v` at an offset of one of them. -/
def updated (bufs : Buf → Nat → Value F) (b : Buf) (off : Nat) (v : Value F) : Buf → Nat → Value F :=
  fun b' off' => if b' = b ∧ off' = off then v else bufs b' off'

def set (b : Buf) (off : Nat) (v : Value F) : Store F :=
  { s with bufs := updated s.bufs b off v }

/-- The `_acc` pipelines add to what is there. -/
def put (acc : Bool) (out : Buf) (off : Nat) (v : Value F) : Store F :=
  s.set out off (if acc then .add (s.bufs out off) v else v)

def exec : Dispatch F → Store F
  | .rms x w out feat _ eps => s.set out 0 (.rms eps w feat.toNat (s.bufs x 0))
  | .quantize pl x _ => { s with q8 := (pl, s.bufs x 0) }
  | .linear pl acc x w out off dims =>
    s.put acc out off (.linear pl.op w dims.k.toNat dims.n.toNat (s.bufs x 0))
  | .dot pl acc w out off dims =>
    s.put acc out off (match pl.op s.q8.1 with
      | some op => .linear op w dims.k.toNat dims.n.toNat s.q8.2
      | none => .unknown)
  | .add x off y n => s.set x off (.bias n.toNat y (s.bufs x off))
  | .rope neox x off nHeads headSize => s.set x off (s.given.rotated neox nHeads headSize (s.bufs x off))
  | .attention q layer out nHeads headSize kvDim kvMul pos =>
    -- the row of this step is number `pos` of each cache
    let off := pos.toNat * kvDim.toNat * 4
    s.set out 0 (.attention s.given.att layer nHeads.toNat headSize.toNat kvDim.toNat kvMul.toNat pos.toNat
      (s.bufs q 0) (s.bufs (.keyCache layer) off) (s.bufs (.valueCache layer) off))
  | .siluMul gate up out n => s.set out 0 (.siluMul n.toNat (s.bufs gate 0) (s.bufs up 0))

def run (cmds : List (Dispatch F)) : Store F :=
  cmds.foldl exec s

/-- The host writes the embedding row to `b_x`. -/
def init (g : Given F) : Store F where
  bufs b off := if b = .bX ∧ off = 0 then .embedding else .unknown
  q8 := (.q8Quant, .unknown)
  given := g

/-! ### What the dispatches of a linear leave -/

@[simp] theorem run_nil : s.run [] = s := rfl

@[simp] theorem run_cons (cmd : Dispatch F) (cmds : List (Dispatch F)) :
    s.run (cmd :: cmds) = (s.exec cmd).run cmds := rfl

@[simp] theorem run_append (front back : List (Dispatch F)) :
    s.run (front ++ back) = (s.run front).run back :=
  List.foldl_append

@[simp] theorem given_exec (cmd : Dispatch F) : (s.exec cmd).given = s.given := by
  cases cmd <;> rfl

@[simp] theorem given_run (cmds : List (Dispatch F)) : (s.run cmds).given = s.given := by
  induction cmds generalizing s with
  | nil => rfl
  | cons cmd cmds ih => rw [run_cons, ih, given_exec]

omit [F32 F] in
theorem updated_same (bufs : Buf → Nat → Value F) (b : Buf) (off : Nat) :
    updated bufs b off (bufs b off) = bufs := by
  funext b' off'
  unfold updated
  split
  next heq => rw [heq.1, heq.2]
  next => rfl

end Store

end Metal

namespace MetalForward

open Metal Store

/-- `as u32` -/
def u32 (n : Nat) : Nat :=
  (UInt32.ofNat n).toNat

/-- The linear that a kind stands for. -/
def kindOp (kind regime : UInt8) : LinearOp :=
  if kind = 2 then .q8_0
  else if kind = 3 then .q5_0
  else if regime = 3 then if kind = 1 then .q6kIntegerRs else .q4kIntegerRs
  else if kind = 1 then .q6kInteger
  else .q4k

variable (mf : MetalForward F) (g : Given F)

def linearValue (x : Value F) (wt : WBuf) : Value F :=
  .linear (kindOp wt.kind mf.regime) wt.buf (u32 wt.k) (u32 wt.n) x

theorem bufs_linearInto (acc : Bool) (s : Store F) (input : Buf) (wt : WBuf) (out : Buf) (off : Nat) :
    (s.run (mf.linearInto acc input wt out off)).bufs =
      (s.put acc out off (mf.linearValue (s.bufs input 0) wt)).bufs := by
  unfold linearInto linearValue kindOp
  by_cases hkind2 : wt.kind = 2
  · rw [if_pos hkind2, if_pos hkind2]
    rfl
  by_cases hkind3 : wt.kind = 3
  · rw [if_neg hkind2, if_pos hkind3, if_neg hkind2, if_pos hkind3]
    rfl
  -- a quantizer leaves the input in `q8`, for the dot pipeline that comes next
  rw [if_neg hkind2, if_neg hkind3, if_neg hkind2, if_neg hkind3]
  by_cases hregime : mf.regime = 3
  · by_cases hkind1 : wt.kind = 1 <;> simp only [hregime, hkind1, if_true, if_false] <;> rfl
  · by_cases hkind1 : wt.kind = 1 <;> simp only [hregime, hkind1, if_true, if_false] <;> rfl

theorem bufs_lin (s : Store F) (input : Buf) (wt : WBuf) (out : Buf) (off : Nat) :
    (s.run (mf.lin input wt out off)).bufs = updated s.bufs out off (mf.linearValue (s.bufs input 0) wt) :=
  mf.bufs_linearInto false s input wt out off

theorem bufs_linAcc (s : Store F) (input : Buf) (wt : WBuf) (out : Buf) (off : Nat) :
    (s.run (mf.linAcc input wt out off)).bufs =
      updated s.bufs out off (.add (s.bufs out off) (mf.linearValue (s.bufs input 0) wt)) :=
  mf.bufs_linearInto true s input wt out off

/-! ### What a layer leaves -/

/-- The biases are added when the first one is there. -/
def biased (l : Layer F) (n : Nat) (b : Option (List F)) (v : Value F) : Value F :=
  match l.bq, b with
  | some _, some b => .bias (u32 n) b v
  | _, _ => v

def normValue (ws : List F) (x : Value F) : Value F :=
  .rms mf.rmsEps ws (u32 mf.dim) x

def qValue (l : Layer F) (x : Value F) : Value F :=
  g.rotated mf.ropeNeox (.ofNat mf.nHeads) (.ofNat mf.headSize)
    (biased l (mf.nHeads * mf.headSize) l.bq (mf.linearValue (mf.normValue l.rmsAtt x) l.wq))

def kValue (l : Layer F) (x : Value F) : Value F :=
  g.rotated mf.ropeNeox (.ofNat (mf.kvDim / mf.headSize)) (.ofNat mf.headSize)
    (biased l mf.kvDim l.bk (mf.linearValue (mf.normValue l.rmsAtt x) l.wk))

def vValue (l : Layer F) (x : Value F) : Value F :=
  biased l mf.kvDim l.bv (mf.linearValue (mf.normValue l.rmsAtt x) l.wv)

/-- The attention kernel finds the row where its own `uint`s say, the host wrote it to `koff`. -/
def rowValue (pos koff : Nat) (v : Value F) : Value F :=
  if u32 pos * u32 mf.kvDim * 4 = koff then v else .unknown

def attendValue (pos koff layer : Nat) (l : Layer F) (x : Value F) : Value F :=
  .attention g.att layer (u32 mf.nHeads) (u32 mf.headSize) (u32 mf.kvDim) (u32 mf.kvMul) (u32 pos)
    (mf.qValue g l x) (mf.rowValue pos koff (mf.kValue g l x)) (mf.rowValue pos koff (mf.vValue l x))

def midValue (pos koff layer : Nat) (l : Layer F) (x : Value F) : Value F :=
  .add x (mf.linearValue (mf.attendValue g pos koff layer l x) l.wo)

def innerValue (l : Layer F) (mid : Value F) : Value F :=
  .siluMul (u32 mf.hidden) (mf.linearValue (mf.normValue l.rmsFfn mid) l.w1)
    (mf.linearValue (mf.normValue l.rmsFfn mid) l.w3)

def layerValue (pos koff layer : Nat) (l : Layer F) (x : Value F) : Value F :=
  let mid := mf.midValue g pos koff layer l x
  .add mid (mf.linearValue (mf.innerValue l mid) l.w2)

/-- Without the first bias no buffer changes, as the equation says then, too. -/
theorem bufs_addBiases {layer koff : Nat} {l : Layer F} {biases : List (Dispatch F)}
    (hbiases : mf.addBiases layer koff l = .ok biases) (s : Store F) :
    (s.run biases).bufs =
      updated (updated (updated s.bufs .bQ 0 (biased l (mf.nHeads * mf.headSize) l.bq (s.bufs .bQ 0)))
        (.keyCache layer) koff (biased l mf.kvDim l.bk (s.bufs (.keyCache layer) koff)))
        (.valueCache layer) koff (biased l mf.kvDim l.bv (s.bufs (.valueCache layer) koff)) := by
  unfold addBiases at hbiases
  cases hbq : l.bq with
  | none =>
    rw [hbq] at hbiases
    cases hbiases
    have hsame : ∀ (n : Nat) b (v : Value F), biased l n b v = v := by
      intro n b v
      unfold biased
      rw [hbq]
    rw [hsame, hsame, hsame, updated_same, updated_same, updated_same]
    rfl
  | some bq =>
    rw [hbq, if_pos Option.isSome_some] at hbiases
    obtain ⟨bq', hunwrap, hbiases⟩ := bind_eq_ok.mp hbiases
    cases hunwrap
    cases hbk : l.bk with
    | none =>
      rw [hbk] at hbiases
      cases hbiases
    | some bk =>
      cases hbv : l.bv with
      | none =>
        rw [hbk, hbv] at hbiases
        cases hbiases
      | some bv =>
        rw [hbk, hbv] at hbiases
        cases hbiases
        unfold biased
        rw [hbq]
        rfl

theorem bufs_feedForwardCommands (l : Layer F) {s : Store F} {mid : Value F} (hx : s.bufs .bX 0 = mid) :
    (s.run (mf.feedForwardCommands l)).bufs .bX 0 =
        .add mid (mf.linearValue (mf.innerValue l mid) l.w2) ∧
      ∀ layer off, (s.run (mf.feedForwardCommands l)).bufs (.keyCache layer) off = s.bufs (.keyCache layer) off ∧
        (s.run (mf.feedForwardCommands l)).bufs (.valueCache layer) off = s.bufs (.valueCache layer) off := by
  unfold feedForwardCommands
  simp only [run_append, run_cons]
  generalize hs₁ : s.exec (.rms .bX l.rmsFfn .bXb (UInt32.ofNat mf.dim) 1 mf.rmsEps) = s₁
  have hb₁ : s₁.bufs = updated s.bufs .bXb 0 (mf.normValue l.rmsFfn mid) := by
    rw [← hs₁, exec, hx]
    rfl
  generalize hs₂ : s₁.run (mf.lin .bXb l.w1 .bGate 0) = s₂
  have hb₂ : s₂.bufs = updated s₁.bufs .bGate 0 (mf.linearValue (mf.normValue l.rmsFfn mid) l.w1) := by
    rw [← hs₂, bufs_lin]
    simp [hb₁, updated]
  generalize hs₃ : s₂.run (mf.lin .bXb l.w3 .bUp 0) = s₃
  have hb₃ : s₃.bufs = updated s₂.bufs .bUp 0 (mf.linearValue (mf.normValue l.rmsFfn mid) l.w3) := by
    rw [← hs₃, bufs_lin]
    simp [hb₁, hb₂, updated]
  generalize hs₄ : s₃.exec (.siluMul .bGate .bUp .bInner (UInt32.ofNat mf.hidden)) = s₄
  have hb₄ : s₄.bufs = updated s₃.bufs .bInner 0 (mf.innerValue l mid) := by
    rw [← hs₄, exec, Store.set]
    simp [hb₂, hb₃, updated, innerValue, u32]
  rw [bufs_linAcc]
  simp [hb₁, hb₂, hb₃, hb₄, hx, updated]

/-- The attention half of a layer, on a device that holds nothing of this layer yet. -/
theorem bufs_attentionCommands {pos koff layer : Nat} {l : Layer F} {cmds : List (Dispatch F)}
    (hcmds : mf.attentionCommands pos koff layer l = .ok cmds) {s : Store F} (hg : s.given = g) {x : Value F}
    (hx : s.bufs .bX 0 = x) (hcaches : ∀ off, s.bufs (.keyCache layer) off = .unknown ∧
      s.bufs (.valueCache layer) off = .unknown) :
    (s.run cmds).bufs .bX 0 = mf.midValue g pos koff layer l x ∧
      (s.run cmds).bufs (.keyCache layer) koff = mf.kValue g l x ∧
      (s.run cmds).bufs (.valueCache layer) koff = mf.vValue l x ∧
      ∀ layer', layer' ≠ layer → ∀ off, (s.run cmds).bufs (.keyCache layer') off = s.bufs (.keyCache layer') off ∧
        (s.run cmds).bufs (.valueCache layer') off = s.bufs (.valueCache layer') off := by
  obtain ⟨biases, hbiases, hcmds⟩ := bind_eq_ok.mp hcmds
  obtain ⟨nKv, hnKv, hcmds⟩ := bind_eq_ok.mp hcmds
  obtain ⟨-, rfl⟩ := div_eq_ok.mp hnKv
  cases hcmds
  simp only [run_append, run_cons, run_nil]
  generalize hs₁ : s.exec (.rms .bX l.rmsAtt .bXb (UInt32.ofNat mf.dim) 1 mf.rmsEps) = s₁
  have hb₁ : s₁.bufs = updated s.bufs .bXb 0 (mf.normValue l.rmsAtt x) := by
    rw [← hs₁, exec, hx]
    rfl
  generalize hs₂ : s₁.run (mf.lin .bXb l.wq .bQ 0) = s₂
  have hb₂ : s₂.bufs = updated s₁.bufs .bQ 0 (mf.linearValue (mf.normValue l.rmsAtt x) l.wq) := by
    rw [← hs₂, bufs_lin]
    simp [hb₁, updated]
  generalize hs₃ : s₂.run (mf.lin .bXb l.wk (.keyCache layer) koff) = s₃
  have hb₃ : s₃.bufs = updated s₂.bufs (.keyCache layer) koff
      (mf.linearValue (mf.normValue l.rmsAtt x) l.wk) := by
    rw [← hs₃, bufs_lin]
    simp [hb₁, hb₂, updated]
  generalize hs₄ : s₃.run (mf.lin .bXb l.wv (.valueCache layer) koff) = s₄
  have hb₄ : s₄.bufs = updated s₃.bufs (.valueCache layer) koff
      (mf.linearValue (mf.normValue l.rmsAtt x) l.wv) := by
    rw [← hs₄, bufs_lin]
    simp [hb₁, hb₂, hb₃, updated]
  generalize hs₅ : s₄.run biases = s₅
  have hb₅ : s₅.bufs = updated (updated (updated s₄.bufs
      .bQ 0 (biased l (mf.nHeads * mf.headSize) l.bq (mf.linearValue (mf.normValue l.rmsAtt x) l.wq)))
      (.keyCache layer) koff (biased l mf.kvDim l.bk (mf.linearValue (mf.normValue l.rmsAtt x) l.wk)))
      (.valueCache layer) koff (mf.vValue l x) := by
    rw [← hs₅, mf.bufs_addBiases hbiases]
    simp [hb₂, hb₃, hb₄, updated, vValue]
  generalize hs₆ : s₅.exec (.rope mf.ropeNeox .bQ 0 (UInt32.ofNat mf.nHeads) (UInt32.ofNat mf.headSize)) = s₆
  have hg₅ : s₅.given = g := by
    rw [← hs₅, given_run, ← hs₄, given_run, ← hs₃, given_run, ← hs₂, given_run, ← hs₁, given_exec, hg]
  have hb₆ : s₆.bufs = updated s₅.bufs .bQ 0 (mf.qValue g l x) := by
    rw [← hs₆, exec, Store.set, hg₅]
    simp [hb₅, updated, qValue]
  generalize hs₇ : s₆.exec (.rope mf.ropeNeox (.keyCache layer) koff (UInt32.ofNat (mf.kvDim / mf.headSize))
    (UInt32.ofNat mf.headSize)) = s₇
  have hg₆ : s₆.given = g := by rw [← hs₆, given_exec, hg₅]
  have hb₇ : s₇.bufs = updated s₆.bufs (.keyCache layer) koff (mf.kValue g l x) := by
    rw [← hs₇, exec, Store.set, hg₆]
    simp [hb₅, hb₆, updated, kValue]
  have hrows : s₇.bufs (.keyCache layer) (u32 pos * u32 mf.kvDim * 4) = mf.rowValue pos koff (mf.kValue g l x) ∧
      s₇.bufs (.valueCache layer) (u32 pos * u32 mf.kvDim * 4) = mf.rowValue pos koff (mf.vValue l x) := by
    unfold rowValue
    by_cases hoff : u32 pos * u32 mf.kvDim * 4 = koff
    · simp [hb₅, hb₆, hb₇, hoff, updated]
    · simp [hb₁, hb₂, hb₃, hb₄, hb₅, hb₆, hb₇, hoff, hcaches, updated]
  generalize hs₈ : s₇.exec (.attention .bQ layer .bAtt (UInt32.ofNat mf.nHeads) (UInt32.ofNat mf.headSize)
    (UInt32.ofNat mf.kvDim) (UInt32.ofNat mf.kvMul) (UInt32.ofNat pos)) = s₈
  have hb₈ : s₈.bufs = updated s₇.bufs .bAtt 0 (mf.attendValue g pos koff layer l x) := by
    have hq : s₇.bufs .bQ 0 = mf.qValue g l x := by simp [hb₆, hb₇, updated]
    have hg₇ : s₇.given = g := by rw [← hs₇, given_exec, hg₆]
    unfold attendValue
    rw [← hrows.1, ← hrows.2, ← hq, ← hs₈, ← hg₇]
    rfl
  rw [bufs_linAcc]
  refine ⟨?_, ?_, ?_, fun layer' hother off => ⟨?_, ?_⟩⟩
  · simp [hb₁, hb₂, hb₃, hb₄, hb₅, hb₆, hb₇, hb₈, hx, updated, midValue]
  · simp [hb₇, hb₈, updated]
  · simp [hb₅, hb₆, hb₇, hb₈, updated]
  · simp [hb₁, hb₂, hb₃, hb₄, hb₅, hb₆, hb₇, hb₈, hother, updated]
  · simp [hb₁, hb₂, hb₃, hb₄, hb₅, hb₆, hb₇, hb₈, hother, updated]

theorem bufs_layerCommands {pos koff layer : Nat} {cmds : List (Dispatch F)}
    (hcmds : mf.layerCommands pos koff layer = .ok cmds) {s : Store F} (hg : s.given = g) {x : Value F}
    (hx : s.bufs .bX 0 = x) (hcaches : ∀ off, s.bufs (.keyCache layer) off = .unknown ∧
      s.bufs (.valueCache layer) off = .unknown) :
    ∃ l, mf.layers[layer]? = some l ∧ (s.run cmds).bufs .bX 0 = mf.layerValue g pos koff layer l x ∧
      (s.run cmds).bufs (.keyCache layer) koff = mf.kValue g l x ∧
      (s.run cmds).bufs (.valueCache layer) koff = mf.vValue l x ∧
      ∀ layer', layer' ≠ layer → ∀ off, (s.run cmds).bufs (.keyCache layer') off = s.bufs (.keyCache layer') off ∧
        (s.run cmds).bufs (.valueCache layer') off = s.bufs (.valueCache layer') off := by
  obtain ⟨l, hl, hcmds⟩ := bind_eq_ok.mp hcmds
  obtain ⟨attention, hattention, hcmds⟩ := bind_eq_ok.mp hcmds
  cases hcmds
  obtain ⟨hmid, hkey, hvalue, hframe⟩ := mf.bufs_attentionCommands g hattention hg hx hcaches
  obtain ⟨hout, hkept⟩ := mf.bufs_feedForwardCommands l hmid
  rw [run_append]
  refine ⟨l, index_eq_ok.mp hl, hout, ?_, ?_, fun layer' hother off => ⟨?_, ?_⟩⟩
  · rw [(hkept _ _).1, hkey]
  · rw [(hkept _ _).2, hvalue]
  · rw [(hkept _ _).1, (hframe layer' hother off).1]
  · rw [(hkept _ _).2, (hframe layer' hother off).2]

/-! ### What a step leaves -/

/-- The residual after the layers from `layer` on, and the rows they put in the caches. -/
def layersValue (pos koff : Nat) : (layer : Nat) → List (Layer F) → Value F →
    Value F × List (Value F × Value F)
  | _, [], x => (x, [])
  | layer, l :: ls, x =>
    let rest := layersValue pos koff (layer + 1) ls (mf.layerValue g pos koff layer l x)
    (rest.1, (mf.kValue g l x, mf.vValue l x) :: rest.2)

def logitsValue (x : Value F) : Value F :=
  mf.linearValue (mf.normValue mf.rmsFinal x) mf.wcls

/-- The layers of a command buffer that began with `e`. -/
theorem bufs_layers {pos koff n lo : Nat} {e body : List (Dispatch F)}
    (h : (forFrom lo n (fun layer e => do
      let cmds ← mf.layerCommands pos koff layer
      pure (e ++ cmds)) e : Res _) = .ok body) {x : Value F} (hx : ((init g).run e).bufs .bX 0 = x)
    (hcaches : ∀ layer, lo ≤ layer → ∀ off, ((init g).run e).bufs (.keyCache layer) off = .unknown ∧
      ((init g).run e).bufs (.valueCache layer) off = .unknown) :
    lo + n ≤ max lo mf.layers.length ∧
      ((init g).run body).bufs .bX 0 = (mf.layersValue g pos koff lo ((mf.layers.drop lo).take n) x).1 ∧
      (∀ i kv, (mf.layersValue g pos koff lo ((mf.layers.drop lo).take n) x).2[i]? = some kv →
        ((init g).run body).bufs (.keyCache (lo + i)) koff = kv.1 ∧
          ((init g).run body).bufs (.valueCache (lo + i)) koff = kv.2) ∧
      ∀ layer, layer < lo → ∀ off,
        ((init g).run body).bufs (.keyCache layer) off = ((init g).run e).bufs (.keyCache layer) off ∧
          ((init g).run body).bufs (.valueCache layer) off = ((init g).run e).bufs (.valueCache layer) off := by
  induction n generalizing lo e x with
  | zero =>
    cases h
    refine ⟨Nat.le_max_left _ _, hx, fun i kv hkv => ?_, fun layer _ off => ⟨rfl, rfl⟩⟩
    rw [List.take_zero] at hkv
    cases hkv
  | succ n ih =>
    obtain ⟨e', hfirst, h⟩ := bind_eq_ok.mp h
    obtain ⟨cmds, hcmds, hfirst⟩ := bind_eq_ok.mp hfirst
    cases hfirst
    obtain ⟨l, hl, hout, hkey, hvalue, hframe⟩ :=
      mf.bufs_layerCommands g hcmds (given_run _ e) hx (hcaches lo (Nat.le_refl lo))
    rw [← run_append] at hout hkey hvalue hframe
    obtain ⟨hcount, hlast, hrows, hearlier⟩ := ih h hout (fun layer hlayer off => by
      rw [(hframe layer (by omega) off).1, (hframe layer (by omega) off).2]
      exact hcaches layer (by omega) off)
    obtain ⟨hlt, hat⟩ := List.getElem?_eq_some_iff.mp hl
    rw [List.drop_eq_getElem_cons hlt, hat, List.take_succ_cons]
    refine ⟨by omega, hlast, fun i kv hkv => ?_, fun layer hlayer off => ?_⟩
    · cases i with
      | zero =>
        cases hkv
        rw [Nat.add_zero, (hearlier lo (by omega) koff).1, (hearlier lo (by omega) koff).2]
        exact ⟨hkey, hvalue⟩
      | succ i =>
        rw [Nat.add_comm i 1, ← Nat.add_assoc]
        exact hrows i kv hkv
    · rw [(hearlier layer (by omega) off).1, (hearlier layer (by omega) off).2]
      exact hframe layer (by omega) off

/-- What the command buffer of a step leaves. -/
theorem bufs_commands {pos : Nat} {cmds : List (Dispatch F)} (h : mf.commands pos = .ok cmds) :
    mf.nLayers ≤ mf.layers.length ∧
      ((init g).run cmds).bufs .bLogits 0 = mf.logitsValue
        (mf.layersValue g pos (pos * mf.kvDim * 4) 0 (mf.layers.take mf.nLayers) .embedding).1 ∧
      ∀ i kv, (mf.layersValue g pos (pos * mf.kvDim * 4) 0 (mf.layers.take mf.nLayers) .embedding).2[i]? = some kv →
        ((init g).run cmds).bufs (.keyCache i) (pos * mf.kvDim * 4) = kv.1 ∧
          ((init g).run cmds).bufs (.valueCache i) (pos * mf.kvDim * 4) = kv.2 := by
  obtain ⟨row, hrow, h⟩ := bind_eq_ok.mp h
  obtain ⟨-, rfl⟩ := word_eq_ok.mp hrow
  obtain ⟨koff, hkoff, h⟩ := bind_eq_ok.mp h
  obtain ⟨-, rfl⟩ := word_eq_ok.mp hkoff
  obtain ⟨body, hbody, h⟩ := bind_eq_ok.mp h
  cases h
  have hstart : ((init g).run ([] : List (Dispatch F))).bufs .bX 0 = .embedding := rfl
  obtain ⟨hcount, hx, hrows, -⟩ := mf.bufs_layers g hbody hstart (fun layer _ off => ⟨rfl, rfl⟩)
  rw [List.drop_zero] at hx hrows
  rw [run_append, run_cons]
  generalize hs₁ : ((init g).run body).exec (.rms .bX mf.rmsFinal .bXb (UInt32.ofNat mf.dim) 1 mf.rmsEps) = s₁
  have hb₁ : s₁.bufs = updated ((init g).run body).bufs .bXb 0 (mf.normValue mf.rmsFinal
      (mf.layersValue g pos (pos * mf.kvDim * 4) 0 (mf.layers.take mf.nLayers) .embedding).1) := by
    rw [← hx, ← hs₁]
    rfl
  rw [bufs_lin]
  refine ⟨by omega, ?_, fun i kv hkv => ?_⟩
  · simp [hb₁, updated, logitsValue]
  · obtain ⟨hkey, hvalue⟩ := hrows i kv hkv
    rw [Nat.zero_add] at hkey hvalue
    simp [hb₁, updated, hkey, hvalue]

end MetalForward

end VitniTensor
