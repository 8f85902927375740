import VitniTensor.Model.DenseTwin
import VitniTensor.Quant.Leaves
import Mathlib.Algebra.Order.BigOperators.Group.Finset

/-!
# What adding in order saves

On floats that count their additions, a net grows with what it reads, and is strictly smaller where attention adds
up in order: such a sum starts one zero, a canonical one starts eight.
-/

namespace VitniTensor

open Rows Rope

/-! ### Counting floats -/

section Operations

variable (a b : Cost)

@[simp] theorem adds_zero : (F32.zero : Cost).adds = 0 := rfl
@[simp] theorem adds_one : (F32.one : Cost).adds = 0 := rfl
@[simp] theorem adds_negInfinity : (F32.negInfinity : Cost).adds = 0 := rfl
@[simp] theorem adds_ofInt (n : Int) : (F32.ofInt n : Cost).adds = 0 := rfl
@[simp] theorem adds_add : (F32.add a b).adds = a.adds + b.adds + 1 := rfl
@[simp] theorem adds_sub : (F32.sub a b).adds = a.adds + b.adds := rfl
@[simp] theorem adds_mul : (F32.mul a b).adds = a.adds + b.adds := rfl
@[simp] theorem adds_div : (F32.div a b).adds = a.adds + b.adds := rfl
@[simp] theorem adds_neg : (F32.neg a).adds = a.adds := rfl
@[simp] theorem adds_expf : (F32.expf a).adds = a.adds := rfl
@[simp] theorem adds_sqrtf : (F32.sqrtf a).adds = a.adds := rfl

end Operations

/-- `b` has at least `k` more additions behind it. -/
def Gap (k : Nat) (a b : Cost) : Prop :=
  a.adds + k ≤ b.adds

/-- Entry by entry. -/
abbrev Gaps (k : Nat) : List Cost → List Cost → Prop :=
  List.Forall₂ (Gap k)

variable {k l : Nat} {xs xs' ys ys' : List Cost}

theorem Gap.refl (a : Cost) : Gap 0 a a :=
  Nat.le_refl _

theorem Gap.weaken {a b : Cost} (h : Gap k a b) (hle : l ≤ k) : Gap l a b := by
  unfold Gap at *
  omega

theorem Gap.mul {a a' b b' : Cost} (ha : Gap k a a') (hb : Gap l b b') : Gap (k + l) (F32.mul a b) (F32.mul a' b') := by
  unfold Gap at *
  simp only [adds_mul]
  omega

theorem Gap.add {a a' b b' : Cost} (ha : Gap k a a') (hb : Gap l b b') : Gap (k + l) (F32.add a b) (F32.add a' b') := by
  unfold Gap at *
  simp only [adds_add]
  omega

theorem Gap.div {a a' b b' : Cost} (ha : Gap k a a') (hb : Gap l b b') : Gap (k + l) (F32.div a b) (F32.div a' b') := by
  unfold Gap at *
  simp only [adds_div]
  omega

/-! ### Lists -/

namespace Gaps

theorem refl (xs : List Cost) : Gaps 0 xs xs :=
  List.forall₂_same.mpr fun a _ => Gap.refl a

theorem weaken (h : Gaps k xs ys) (hle : l ≤ k) : Gaps l xs ys :=
  h.imp fun _ _ hgap => hgap.weaken hle

theorem length (h : Gaps k xs ys) : xs.length = ys.length :=
  h.length_eq

theorem getD (h : Gaps k xs ys) {i : Nat} (hi : i < xs.length) : Gap k (xs.getD i F32.zero) (ys.getD i F32.zero) := by
  have hi' : i < ys.length := h.length ▸ hi
  rw [List.getD_eq_getElem?_getD, List.getD_eq_getElem?_getD, List.getElem?_eq_getElem hi, List.getElem?_eq_getElem hi']
  exact h.get hi hi'

/-- Past the end both are zero. -/
theorem getD_zero (h : Gaps 0 xs ys) (i : Nat) : Gap 0 (xs.getD i F32.zero) (ys.getD i F32.zero) := by
  by_cases hi : i < xs.length
  · exact h.getD hi
  · rw [List.getD_eq_getElem?_getD, List.getD_eq_getElem?_getD, List.getElem?_eq_none (by omega),
      List.getElem?_eq_none (by rw [← h.length]; omega)]
    exact Gap.refl _

theorem map {f g : Cost → Cost} (h : Gaps k xs ys) (each : ∀ a b, Gap k a b → Gap l (f a) (g b)) :
    Gaps l (xs.map f) (ys.map g) := by
  unfold Gaps
  rw [List.forall₂_map_left_iff, List.forall₂_map_right_iff]
  exact h.imp fun a b hgap => each a b hgap

theorem zipWith {m : Nat} {f g : Cost → Cost → Cost} (hx : Gaps k xs xs') (hy : Gaps l ys ys')
    (each : ∀ a a' b b', Gap k a a' → Gap l b b' → Gap m (f a b) (g a' b')) :
    Gaps m (List.zipWith f xs ys) (List.zipWith g xs' ys') := by
  induction hx generalizing ys ys' with
  | nil => exact .nil
  | cons hfirst _ ih =>
    cases hy with
    | nil => exact .nil
    | cons hfirst' hrest' => exact .cons (each _ _ _ _ hfirst hfirst') (ih hrest')

theorem range {n : Nat} {f g : Nat → Cost} (h : ∀ i < n, Gap k (f i) (g i)) :
    Gaps k ((List.range n).map f) ((List.range n).map g) := by
  unfold Gaps
  rw [List.forall₂_map_left_iff, List.forall₂_map_right_iff, List.forall₂_same]
  exact fun i hi => h i (List.mem_range.mp hi)

theorem row (h : Gaps k xs ys) (w r : Nat) : Gaps k (Rows.row w xs r) (Rows.row w ys r) :=
  List.forall₂_take w (List.forall₂_drop (r * w) h)

end Gaps

/-! ### Reductions -/

private theorem sum_leaves_gap {n : Nat} {v v' : Nat → Cost} (h : ∀ i < n, Gap k (v i) (v' i)) :
    ∑ i ∈ Finset.range n, leaves (v i) + n * k ≤ ∑ i ∈ Finset.range n, leaves (v' i) := by
  have heach : ∀ i ∈ Finset.range n, leaves (v i) + k ≤ leaves (v' i) := by
    intro i hi
    have hgap := h i (Finset.mem_range.mp hi)
    unfold Gap at hgap
    unfold leaves
    omega
  have hsum := Finset.sum_le_sum heach
  rwa [Finset.sum_add_distrib, Finset.sum_const_nat fun _ _ => rfl, Finset.card_range] at hsum

theorem canonicalValue_gap {n : Nat} {v v' : Nat → Cost} (h : ∀ i < n, Gap k (v i) (v' i)) (hk : k = 0 ∨ 0 < n) :
    Gap k (canonicalValue v n) (canonicalValue v' n) := by
  rcases Nat.eq_zero_or_pos n with rfl | hn
  · obtain rfl : k = 0 := by omega
    exact Gap.refl _
  · have hterms := sum_leaves_gap h
    have hmore := Nat.le_mul_of_pos_left k hn
    have hleft := leaves_canonicalValue v hn
    have hright := leaves_canonicalValue v' hn
    unfold leaves at hleft hright hterms
    unfold Gap
    omega

theorem leaves_serialValue (v : Nat → Cost) (n : Nat) :
    leaves (serialValue v n) = 1 + ∑ i ∈ Finset.range n, leaves (v i) :=
  leaves_foldl v _ F32.zero

/-- The canonical sum has more zeros to start from. -/
theorem serialValue_gap {n : Nat} {v v' : Nat → Cost} (h : ∀ i < n, Gap 0 (v i) (v' i)) (hn : 0 < n) :
    Gap 1 (serialValue v n) (canonicalValue v' n) := by
  have hterms := sum_leaves_gap h
  have hleft := leaves_serialValue v n
  have hright := leaves_canonicalValue v' hn
  have hchunks : 0 < (n + canonChunk - 1) / canonChunk := by unfold canonChunk; omega
  unfold leaves at hleft hright hterms
  unfold Gap
  omega

theorem productOf_gap {ws ws' : List Cost} (hx : Gaps k xs ys) (hw : Gaps 0 ws ws') {i : Nat} (hi : i < xs.length) :
    Gap k (productOf xs ws i) (productOf ys ws' i) :=
  (hx.getD hi).mul (hw.getD_zero i)

/-! ### The operations of a step -/

theorem rmsValue_gap (ws : List Cost) (eps : Cost) (h : Gaps k xs ys) : Gaps k (rmsValue ws eps xs) (rmsValue ws eps ys) := by
  have hsquares : Gap 0 (canonicalValue (productOf xs xs) xs.length) (canonicalValue (productOf ys ys) ys.length) := by
    have hzero := h.weaken (Nat.zero_le k)
    rw [← h.length]
    exact canonicalValue_gap (fun i hi => productOf_gap hzero hzero hi) (.inl rfl)
  have hmean := hsquares.div (Gap.refl (F32.ofInt xs.length))
  have hscale := (Gap.refl F32.one).div (hmean.add (Gap.refl eps))
  unfold rmsValue
  rw [← h.length] at hscale ⊢
  refine h.zipWith (Gaps.refl ws) fun a a' b b' ha hb => ?_
  exact (ha.mul hscale).mul hb

/-- No float of `Cost` lies below another. -/
theorem maxOf_counts (xs : List Cost) : maxOf xs = F32.negInfinity := by
  have hfold : ∀ a : Cost, xs.foldl (fun max v => if F32.lt max v then v else max) a = a := by
    induction xs with
    | nil => exact fun a => rfl
    | cons v xs ih => exact fun a => ih a
  exact hfold _

theorem softmaxValue_gap (h : Gaps 0 xs ys) : Gaps 0 (softmaxValue xs) (softmaxValue ys) := by
  have hexps : Gaps 0 (xs.map fun v => F32.expf (F32.sub v (maxOf xs))) (ys.map fun v => F32.expf (F32.sub v (maxOf ys))) := by
    refine h.map fun a b hgap => ?_
    unfold Gap at *
    simpa [maxOf_counts] using hgap
  have hsum := canonicalValue_gap (fun i (_ : i < xs.length) => hexps.getD_zero i) (.inl rfl)
  have hinv := (Gap.refl F32.one).div hsum
  unfold softmaxValue
  rw [h.length] at hinv ⊢
  exact hexps.map fun a b hgap => hgap.mul hinv

theorem siluOf_gap {a b : Cost} (h : Gap 0 a b) : Gap 0 (Tensor.siluOf a) (Tensor.siluOf b) := by
  unfold Gap at *
  simp only [adds_div, adds_add, adds_one, adds_expf, adds_neg]
  omega

theorem interleaved_gap (rot : Nat → Cost × Cost) (h : Gaps 0 xs ys) : Gaps 0 (interleaved rot xs) (interleaved rot ys) := by
  have hturn : ∀ (r : Cost × Cost) (a a' b b' : Cost), Gap 0 a a' → Gap 0 b b' →
      Gap 0 (turn r a b).1 (turn r a' b').1 ∧ Gap 0 (turn r a b).2 (turn r a' b').2 := by
    intro r a a' b b' ha hb
    unfold turn
    unfold Gap at *
    simp only [adds_sub, adds_add, adds_mul]
    omega
  unfold interleaved
  rw [← h.length]
  refine Gaps.range fun c _ => ?_
  unfold turnedCell
  split
  · exact (hturn _ _ _ _ _ (h.getD_zero c) (h.getD_zero (c + 1))).1
  · exact (hturn _ _ _ _ _ (h.getD_zero (c - 1)) (h.getD_zero c)).2

theorem rowProducts_gap {ws : List Cost} {inFeat outFeat : Nat} (hws : ws.length = outFeat * inFeat) (h : Gaps k xs ys)
    (hxs : xs.length = inFeat) (hk : k = 0 ∨ 0 < inFeat) :
    Gaps k (rowProducts xs ws inFeat outFeat) (rowProducts ys ws inFeat outFeat) := by
  refine Gaps.range fun o ho => ?_
  have hrow : (row inFeat ws o).length = inFeat := length_row ho hws
  rw [dotValue_eq hxs.ge hrow.ge, dotValue_eq (h.length.symm.trans hxs).ge hrow.ge]
  exact canonicalValue_gap (fun i hi => productOf_gap h (Gaps.refl _) (by omega)) hk

/-! ### Nets -/

/-- What a net does in its own way grows with its argument. -/
structure Net.Grows (m : Net Cost) : Prop where
  norm : ∀ {k : Nat} (ws : List Cost) {xs ys : List Cost}, Gaps k xs ys → Gaps k (m.norm ws xs) (m.norm ws ys)
  act : ∀ {a b : Cost}, Gap 0 a b → Gap 0 (m.act a) (m.act b)

theorem Pass.net_grows (p : Pass Cost) : p.net.Grows :=
  ⟨fun ws _ _ h => rmsValue_gap ws _ h, siluOf_gap⟩

/-- A key and a value, entry by entry. -/
def RowGap (kv kv' : KeyValue Cost) : Prop :=
  Gaps 0 kv.1 kv'.1 ∧ Gaps 0 kv.2 kv'.2

/-- Rows of earlier positions, layer by layer. -/
def PastGap (past past' : Past Cost) : Prop :=
  ∀ layer, List.Forall₂ (Gaps 0) (past layer).1 (past' layer).1 ∧ List.Forall₂ (Gaps 0) (past layer).2 (past' layer).2

namespace Net

variable {m : Net Cost} {blk : Block Cost}

theorem residual_gap (hx : Gaps k xs xs') (hy : Gaps l ys ys') : Gaps (k + l) (residual xs ys) (residual xs' ys') :=
  hx.zipWith hy fun _ _ _ _ ha hb => ha.add hb

theorem gated_gap (hm : m.Grows) (hgate : Gaps 0 xs xs') (hup : Gaps 0 ys ys') :
    Gaps 0 (m.gated xs ys) (m.gated xs' ys') :=
  hgate.zipWith hup fun _ _ _ _ ha hb => (hm.act ha).mul hb

theorem queryKeyValue_gap (hm : m.Grows) (hsized : m.Sized) (hblk : blk.Sized m) (pos : Nat) (h : Gaps 0 xs ys)
    (hxs : xs.length = m.dim) :
    Gaps 0 (m.queryKeyValue pos blk xs).1 (m.queryKeyValue pos blk ys).1 ∧
      RowGap (m.queryKeyValue pos blk xs).2 (m.queryKeyValue pos blk ys).2 := by
  have hnorm := hm.norm blk.rmsAtt h
  have hlength := hsized.norm hblk.rmsAtt hxs
  refine ⟨interleaved_gap _ ?_, interleaved_gap _ ?_, ?_⟩
  · exact rowProducts_gap hblk.wq hnorm hlength (.inl rfl)
  · exact rowProducts_gap hblk.wk hnorm hlength (.inl rfl)
  · exact rowProducts_gap hblk.wv hnorm hlength (.inl rfl)

section Attention

variable {q q' : List Cost} {keys keys' values values' : List (List Cost)}

/-- One dot product in order, the other canonical. -/
theorem score_gap (hsize : 0 < m.headSize) (hq : Gaps 0 q q') (h : Nat) {key key' : List Cost} (hkey : Gaps 0 key key') :
    Gap 0 (m.score serialValue q h key) (m.score canonicalValue q' h key') := by
  have hterms : ∀ i < m.headSize, Gap 0
      (productOf (row m.headSize q h) (row m.headSize key (h / m.kvMul)) i)
      (productOf (row m.headSize q' h) (row m.headSize key' (h / m.kvMul)) i) :=
    fun i _ => ((hq.row _ _).getD_zero i).mul ((hkey.row _ _).getD_zero i)
  exact ((serialValue_gap hterms hsize).weaken (Nat.zero_le 1)).div (Gap.refl _)

theorem attentionHead_gap (hsize : 0 < m.headSize) (hq : Gaps 0 q q') (hkeys : List.Forall₂ (Gaps 0) keys keys')
    (hvalues : List.Forall₂ (Gaps 0) values values') (hsome : 0 < values.length) (h : Nat) :
    Gaps 1 (m.attentionHead serialValue q keys values h) (m.attentionHead canonicalValue q' keys' values' h) := by
  have hscores : Gaps 0 (keys.map (m.score serialValue q h)) (keys'.map (m.score canonicalValue q' h)) := by
    unfold Gaps
    rw [List.forall₂_map_left_iff, List.forall₂_map_right_iff]
    exact hkeys.imp fun _ _ hkey => score_gap hsize hq h hkey
  have hatt := softmaxValue_gap hscores
  refine Gaps.range fun d _ => ?_
  have hcolumn : Gaps 0 (m.valueColumn values h d) (m.valueColumn values' h d) := by
    unfold Gaps valueColumn
    rw [List.forall₂_map_left_iff, List.forall₂_map_right_iff]
    exact hvalues.imp fun _ _ hvalue => (hvalue.row _ _).getD_zero d
  unfold valueSum
  rw [← hvalues.length_eq]
  exact serialValue_gap (fun t _ => (hatt.getD_zero t).mul (hcolumn.getD_zero t)) hsome

/-- Every entry of every head has been added up with fewer additions. -/
theorem attention_gap (hsize : 0 < m.headSize) (hq : Gaps 0 q q') (hkeys : List.Forall₂ (Gaps 0) keys keys')
    (hvalues : List.Forall₂ (Gaps 0) values values') (hsome : 0 < values.length) :
    Gaps 1 (m.attention serialValue q keys values) (m.attention canonicalValue q' keys' values') := by
  refine List.rel_flatten ?_
  rw [List.forall₂_map_left_iff, List.forall₂_map_right_iff, List.forall₂_same]
  exact fun h _ => attentionHead_gap hsize hq hkeys hvalues hsome h

end Attention

theorem attnOutput_gap (hsized : m.Sized) (hblk : blk.Sized m) {heads heads' : List Cost} (hx : Gaps 0 xs xs')
    (hheads : Gaps 1 heads heads') (hlength : heads.length = m.dim) :
    Gaps 1 (m.attnOutput blk xs heads) (m.attnOutput blk xs' heads') := by
  have hgap := residual_gap hx (rowProducts_gap hblk.wo hheads hlength (.inr hsized.dim))
  rwa [Nat.zero_add] at hgap

/-- The residual stream keeps what it has. -/
theorem feedForward_gap (hm : m.Grows) (hsized : m.Sized) (hblk : blk.Sized m) (hx : Gaps k xs xs')
    (hxs : xs.length = m.dim) : Gaps k (m.feedForward blk xs) (m.feedForward blk xs') := by
  have hnorm := hm.norm blk.rmsFfn (hx.weaken (Nat.zero_le k))
  have hlength := hsized.norm hblk.rmsFfn hxs
  have hinner := gated_gap hm (rowProducts_gap hblk.w1 hnorm hlength (.inl rfl))
    (rowProducts_gap hblk.w3 hnorm hlength (.inl rfl))
  refine residual_gap hx (rowProducts_gap hblk.w2 hinner ?_ (.inl rfl))
  rw [length_gated (by rw [length_rowProducts, length_rowProducts]), length_rowProducts]

/-! ### Steps -/

variable {past past' : Past Cost}

theorem layerOut_gap (hm : m.Grows) (hsized : m.Sized) (hblk : blk.Sized m) (pos layer : Nat) (hpast : PastGap past past')
    (hx : Gaps 0 xs xs') (hxs : xs.length = m.dim) :
    Gaps 1 (m.layerOut serialValue pos (past layer) blk xs).1 (m.layerOut canonicalValue pos (past' layer) blk xs').1 ∧
      RowGap (m.layerOut serialValue pos (past layer) blk xs).2 (m.layerOut canonicalValue pos (past' layer) blk xs').2 := by
  obtain ⟨hq, hrow⟩ := queryKeyValue_gap hm hsized hblk pos hx hxs
  have hsize : 0 < m.headSize := Nat.pos_of_mul_pos_left (hsized.heads ▸ hsized.dim)
  have hheads := attention_gap hsize hq (List.rel_append (hpast layer).1 (.cons hrow.1 .nil))
    (List.rel_append (hpast layer).2 (.cons hrow.2 .nil)) (by rw [List.length_append]; exact Nat.succ_pos _)
  have hlength := @length_attention Cost _ serialValue m hsized.heads (m.queryKeyValue pos blk xs).1
    ((past layer).1 ++ [(m.queryKeyValue pos blk xs).2.1]) ((past layer).2 ++ [(m.queryKeyValue pos blk xs).2.2])
  exact ⟨feedForward_gap hm hsized hblk (attnOutput_gap hsized hblk hx hheads hlength) (length_attnOutput hxs), hrow⟩

/-- The residual keeps its gap through the layers, and gets one in the first of them. -/
theorem layers_gap (hm : m.Grows) (hsized : m.Sized) (pos : Nat) (hpast : PastGap past past') {blks : List (Block Cost)}
    (hblks : ∀ blk ∈ blks, blk.Sized m) (layer : Nat) (hx : Gaps k xs xs') (hk : k ≤ 1) (hxs : xs.length = m.dim) :
    Gaps k (m.layers serialValue pos past blks layer xs).1 (m.layers canonicalValue pos past' blks layer xs').1 ∧
      List.Forall₂ RowGap (m.layers serialValue pos past blks layer xs).2
        (m.layers canonicalValue pos past' blks layer xs').2 ∧
      (blks ≠ [] → Gaps 1 (m.layers serialValue pos past blks layer xs).1
        (m.layers canonicalValue pos past' blks layer xs').1) := by
  induction blks generalizing layer k xs xs' with
  | nil => exact ⟨hx, .nil, fun h => absurd rfl h⟩
  | cons blk blks ih =>
    obtain ⟨hout, hrow⟩ := layerOut_gap hm hsized (hblks blk List.mem_cons_self) pos layer hpast
      (hx.weaken (Nat.zero_le k)) hxs
    obtain ⟨hrest, hrows, -⟩ := ih (fun b hmem => hblks b (List.mem_cons_of_mem blk hmem)) (layer + 1) hout (Nat.le_refl 1)
      (length_layerOut pos (past layer) blk hxs)
    exact ⟨hrest.weaken hk, .cons hrow hrows, fun _ => hrest⟩

/-- Every logit of a step that adds up in order has fewer additions behind it. -/
theorem step_gap (hm : m.Grows) (hsized : m.Sized) (hsome : m.blocks ≠ []) (pos : Nat) (hpast : PastGap past past')
    {token : UInt32} (htoken : token.toNat < m.vocabSize) :
    Gaps 1 (m.step serialValue pos past token).1 (m.step canonicalValue pos past' token).1 ∧
      List.Forall₂ RowGap (m.step serialValue pos past token).2 (m.step canonicalValue pos past' token).2 := by
  have hxs := length_embed hsized htoken
  obtain ⟨-, hrows, hlast⟩ := layers_gap hm hsized pos hpast hsized.blocks 0 (Gaps.refl (m.embed token)) (Nat.zero_le 1) hxs
  have hlength := (@length_layers Cost _ serialValue m (m.embed token) pos past m.blocks 0 hxs).1
  exact ⟨rowProducts_gap hsized.head (hm.norm m.rmsFinal (hlast hsome)) (hsized.norm hsized.rmsFinal hlength) (.inr hsized.dim), hrows⟩

/-! ### Runs -/

theorem pastOf_gap {logs logs' : List (List (KeyValue Cost))} (h : List.Forall₂ (List.Forall₂ RowGap) logs logs') :
    PastGap (pastOf logs) (pastOf logs') := by
  intro layer
  have hrow : ∀ log log' : List (KeyValue Cost), List.Forall₂ RowGap log log' →
      RowGap (log.getD layer ([], [])) (log'.getD layer ([], [])) := by
    intro log log' hlog
    rw [List.getD_eq_getElem?_getD, List.getD_eq_getElem?_getD]
    by_cases hlayer : layer < log.length
    · have hlayer' : layer < log'.length := hlog.length_eq ▸ hlayer
      rw [List.getElem?_eq_getElem hlayer, List.getElem?_eq_getElem hlayer']
      exact hlog.get hlayer hlayer'
    · rw [List.getElem?_eq_none (by omega), List.getElem?_eq_none (by rw [← hlog.length_eq]; omega)]
      exact ⟨.nil, .nil⟩
  unfold pastOf
  constructor
  · rw [List.forall₂_map_left_iff, List.forall₂_map_right_iff]
    exact h.imp fun log log' hlog => (hrow log log' hlog).1
  · rw [List.forall₂_map_left_iff, List.forall₂_map_right_iff]
    exact h.imp fun log log' hlog => (hrow log log' hlog).2

/-- So has every logit of a run. -/
theorem run_gap (hm : m.Grows) (hsized : m.Sized) (hsome : m.blocks ≠ []) {logs logs' : List (List (KeyValue Cost))}
    (hlogs : List.Forall₂ (List.Forall₂ RowGap) logs logs') {tokens : List UInt32}
    (htokens : ∀ token ∈ tokens, token.toNat < m.vocabSize) :
    List.Forall₂ (Gaps 1) (m.run serialValue logs tokens).1 (m.run canonicalValue logs' tokens).1 := by
  induction tokens generalizing logs logs' with
  | nil => exact .nil
  | cons token tokens ih =>
    obtain ⟨hlogits, hrows⟩ := step_gap hm hsized hsome logs.length (pastOf_gap hlogs)
      (htokens token List.mem_cons_self)
    unfold run
    rw [← hlogs.length_eq]
    exact .cons hlogits (ih (List.rel_append hlogs (.cons hrows .nil)) fun t ht => htokens t (List.mem_cons_of_mem token ht))

end Net

/-- Every logit of the net of a pass has fewer additions behind it where attention adds up in order. -/
theorem Pass.HasTwin.run_apart {p : Pass Cost} (hp : p.HasTwin) (hlayers : 0 < p.cfg.nLayers) {tokens : List UInt32}
    (htokens : ∀ token ∈ tokens, token.toNat < p.cfg.vocabSize) :
    List.Forall₂ (List.Forall₂ fun a b => b.adds < a.adds) (p.net.run canonicalValue [] tokens).1
      (p.net.run serialValue [] tokens).1 := by
  have hsome : p.net.blocks ≠ [] := by
    refine List.ne_nil_of_length_pos ?_
    change 0 < (p.weights.layers.map QuantLayer.block).length
    rw [List.length_map, hp.float.sized.layers]
    exact hlayers
  have hgap := Net.run_gap p.net_grows hp.float.net_sized hsome .nil htokens
  exact (hgap.imp fun _ _ hrow => hrow.flip.imp fun _ _ h => h).flip

/-- On floats that count, the quantized pass and its decoded twin differ in every logit at every position, whatever
the weights and the prompt: attention in the F32 pass makes fewer additions. -/
theorem passes_apart {build : Build} {blake3 : Blake3} {cfg : Config} {w : QuantizedWeights Cost} {wd : Weights Cost}
    {p : Pass Cost} {s : RunState Cost} (hpass : passOf build blake3 cfg w none 0 s.regime = .ok p) (hp : p.HasTwin)
    (hlayers : 0 < cfg.nLayers) (hwd : dequantizeWeights w = .ok wd) (hs : s.Fits p) {tokens : List UInt32}
    (hcount : tokens.length ≤ cfg.seqLen) (htokens : ∀ token ∈ tokens, token.toNat < cfg.vocabSize) :
    ∃ ys zs rows rows' s₁ s₂, (forwardAll (step build blake3 cfg w) tokens.zipIdx).eval s = (.ok ys, s₁) ∧
      (forwardAll (DensePass.step cfg wd) tokens.zipIdx).eval s = (.ok zs, s₂) ∧
      List.Forall₂ (fun y row => y.Is [cfg.vocabSize] row) ys rows ∧
      List.Forall₂ (fun z row => z.Is [cfg.vocabSize] row) zs rows' ∧
      List.Forall₂ (List.Forall₂ fun a b => b.adds < a.adds) rows rows' := by
  obtain ⟨ys, zs, s₁, s₂, hrun, hrun', hys, hzs⟩ := cross_check hpass hp hwd hs hcount htokens
  have hcfg := passOf_cfg hpass
  subst hcfg
  exact ⟨ys, zs, _, _, s₁, s₂, hrun, hrun', hys, hzs, hp.run_apart hlayers htokens⟩

theorem passes_apart_small :
    ∃ ys zs rows rows' s₁ s₂,
      (forwardAll (step .serial noHash twoHeads smallWeights) [(1, 0), (0, 1)]).eval (smallState (⟨3⟩ : Cost)) = (.ok ys, s₁) ∧
      (forwardAll (DensePass.step twoHeads smallWeights.tables) [(1, 0), (0, 1)]).eval (smallState (⟨3⟩ : Cost)) =
        (.ok zs, s₂) ∧
      List.Forall₂ (fun y row => y.Is [2] row) ys rows ∧
      List.Forall₂ (fun z row => z.Is [2] row) zs rows' ∧
      List.Forall₂ (List.Forall₂ fun a b => b.adds < a.adds) rows rows' :=
  @passes_apart .serial noHash twoHeads smallWeights _ smallPass (smallState ⟨3⟩) smallPass_of smallPass_hasTwin
    (Nat.one_pos) smallWeights_decoded ⟨rfl, rfl⟩ [1, 0] (Nat.le_refl 2) smallTokens

end VitniTensor
