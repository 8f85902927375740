import VitniTensor.Quant.Linear

/-!
# Row-parallel linears

Every row is computed by exactly one chunk task, and a row's value does not depend on the
others, so the schedule, the grain and the number of threads are invisible in the output.
-/

namespace VitniTensor

open Outcome Fill

variable {F : Type} [F32 F]

/-! ### The chunk tasks cover every row once -/

theorem taskRows_upTo (n grain k : Nat) :
    (List.range k).flatMap (taskRows n grain) = List.range (min (k * grain) n) := by
  induction k with
  | zero => simp
  | succ k ih =>
    rw [List.range_succ, List.flatMap_append, ih, List.flatMap_singleton, taskRows, List.range_eq_range',
      List.range_eq_range']
    by_cases hinside : k * grain ≤ n
    · have hstart : k * grain = 0 + 1 * (k * grain) := by omega
      have hlast : min ((k + 1) * grain) n = k * grain + min grain (n - k * grain) := by
        rw [Nat.add_mul]
        omega
      rw [Nat.min_eq_left hinside, hlast]
      nth_rewrite 2 [hstart]
      rw [List.range'_append]
    · have hnone : min grain (n - k * grain) = 0 := by omega
      have hlast : min ((k + 1) * grain) n = n := by
        rw [Nat.add_mul]
        omega
      rw [hnone, hlast, Nat.min_eq_right (by omega), List.range'_zero, List.append_nil]

/-- Whatever the order, the tasks' rows are all the rows, each of them once. -/
theorem taskRows_perm (sched : Schedule) {n grain : Nat} (hgrain : 0 < grain) (b : Nat) :
    ((sched.order (chunkCount n grain) b).flatMap (taskRows n grain)).Perm (List.range n) := by
  have hall : n ≤ chunkCount n grain * grain := by
    have hdiv := Nat.div_add_mod (n + grain - 1) grain
    have hmod := Nat.mod_lt (n + grain - 1) hgrain
    have hcomm := Nat.mul_comm ((n + grain - 1) / grain) grain
    unfold chunkCount
    omega
  have hperm := (sched.perm (chunkCount n grain) b).flatMap_right (taskRows n grain)
  rwa [taskRows_upTo, Nat.min_eq_right hall] at hperm

theorem grainOf_pos (outFeat tasks : Nat) : 0 < grainOf outFeat tasks :=
  Nat.lt_of_lt_of_le Nat.zero_lt_one (Nat.le_max_left _ _)

/-! ### What a batch writes -/

omit [F32 F] in
private theorem runTask_ok {f : Nat → Res F} {v : Nat → F} {grain : Nat} {out : List F}
    (hf : ∀ o < out.length, f o = .ok (v o)) (t : Nat) :
    runTask f grain out t = .ok (fill v (taskRows out.length grain t) out) := by
  unfold runTask
  by_cases hinside : t * grain ≤ out.length
  · rw [forFrom_storeAt (fun i _ hi => hf i (by omega)) (by omega)]
    simp only [Nat.zero_add, Nat.sub_zero]
    rfl
  · have hnone : min grain (out.length - t * grain) = 0 := by omega
    rw [taskRows, hnone]
    rfl

omit [F32 F] in
/-- Tasks in a row fill the rows of all of them. -/
private theorem runTasks_ok {f : Nat → Res F} {v : Nat → F} {grain : Nat} {out : List F}
    (hf : ∀ o < out.length, f o = .ok (v o)) (ts : List Nat) :
    ts.foldlM (runTask f grain) out = .ok (fill v (ts.flatMap (taskRows out.length grain)) out) := by
  induction ts generalizing out with
  | nil => rfl
  | cons t ts ih =>
    have hlength := length_fill v (taskRows out.length grain t) out
    rw [List.foldlM_cons, runTask_ok hf, List.flatMap_cons, fill_append]
    refine (ih ?_).trans ?_
    · rwa [hlength]
    · rw [hlength]

omit [F32 F] in
private theorem rowLoop_ok {ω : Type} {width base outFeat : Nat} {row : List ω → Res F} {w : List ω}
    {v : Nat → F} {y : List F} (hrow : ∀ o < outFeat, rowAt width row w o = .ok (v o))
    (hy : base + outFeat ≤ y.length) :
    rowLoop width row w base outFeat y =
      .ok (y.take base ++ (List.range outFeat).map v ++ y.drop (base + outFeat)) := by
  have hvalues : (List.range' base outFeat).map (fun j => v (j - base)) = (List.range outFeat).map v := by
    rw [List.range'_eq_map_range, List.map_map]
    refine List.map_congr_left fun o _ => ?_
    simp only [Function.comp_apply, Nat.add_sub_cancel_left]
  unfold rowLoop
  rw [forRange, forFrom_storeAt (fun o _ ho => hrow o (by omega)) (by omega), Nat.add_zero,
    fill_range' hy, hvalues]

omit [F32 F] in
theorem rowLoop_returns {ω : Type} {width base outFeat : Nat} {row : List ω → Res F} {w : List ω} {y : List F}
    (hw : outFeat * width ≤ w.length) (hy : base + outFeat ≤ y.length)
    (hrow : ∀ wRow, wRow.length = width → ∃ v, row wRow = .ok v) :
    ∃ y', rowLoop width row w base outFeat y = .ok y' := by
  obtain ⟨y', hrun, -⟩ := @forFrom_ok Error (List F) (fun _ z => z.length = y.length) 0 outFeat
    (storeAt (rowAt width row w) base) y rfl (by
    intro o z _ ho hz
    obtain ⟨wRow, hslice, hlength⟩ := slice_row (ε := Error) (show o < outFeat by omega) hw
    obtain ⟨v, hv⟩ := hrow wRow hlength
    refine ⟨z.set (base + o) v, ?_, by rw [List.length_set, hz]⟩
    unfold storeAt rowAt
    rw [hslice, ok_bind, hv, ok_bind, store_of_lt (by omega)])
  exact ⟨y', hrun⟩

omit [F32 F] in
/-- Enough weights, and row kernels that return. -/
theorem linearRows_total {ω α : Type} {width batch inFeat outFeat : Nat} {prepare : List F → Res α}
    {row : α → List ω → Res F} {x y : List F} {w : List ω} (hx : x.length = batch * inFeat) (hy : y.length = batch * outFeat)
    (hw : outFeat * width ≤ w.length) (hprepare : ∀ xRow : List F, xRow.length = inFeat → ∃ a, prepare xRow = .ok a)
    (hrow : ∀ xRow a wRow, xRow.length = inFeat → prepare xRow = .ok a → wRow.length = width →
      ∃ v, row a wRow = .ok v) : ∃ y', linearRows width prepare row x w y batch inFeat outFeat = .ok y' := by
  obtain ⟨y', hrun, -⟩ := @forFrom_ok Error _ (fun _ z => z.length = y.length) 0 batch
    (batchRows width prepare row x w inFeat outFeat) y rfl (by
    intro b z _ hb hz
    obtain ⟨xRow, hslice, hlength⟩ := slice_row (ε := Error) (show b < batch by omega) (Nat.le_of_eq hx.symm)
    obtain ⟨a, ha⟩ := hprepare xRow hlength
    have hfits : b * outFeat + outFeat ≤ z.length := by
      rw [hz, hy, ← Nat.succ_mul]
      exact Nat.mul_le_mul_right outFeat (by omega)
    obtain ⟨z', hz'⟩ := rowLoop_returns hw hfits fun wRow hwRow => hrow xRow a wRow hlength ha hwRow
    refine ⟨z', ?_, (length_forFrom_storeAt hz').trans hz⟩
    unfold batchRows
    rw [hslice, ok_bind, ha, ok_bind, hz'])
  exact ⟨y', hrun⟩

/-- One batch with and without tasks, for row kernels that agree and never stop. -/
private theorem batchParallel_eq {ω α : Type} {width inFeat outFeat grain : Nat}
    {prepare : List F → Res α} {row row' : α → List ω → Res F} (sched : Schedule) (hgrain : 0 < grain)
    {x : List F} {w : List ω} (hw : outFeat * width ≤ w.length)
    (hrow : ∀ xRow a wRow, xRow.length = inFeat → prepare xRow = .ok a → wRow.length = width →
      row' a wRow = row a wRow ∧ ∃ v, row a wRow = .ok v) (b : Nat) (y : List F) :
    batchRows width prepare row x w inFeat outFeat b y =
      batchParallel width prepare row' sched grain x w inFeat outFeat b y := by
  unfold batchRows batchParallel
  cases hslice : (slice x (b * inFeat) ((b + 1) * inFeat) : Res (List F)) with
  | error stop => rfl
  | ok xRow =>
    have hx : xRow.length = inFeat := by
      rw [length_of_slice hslice, Nat.add_mul, Nat.one_mul, Nat.add_sub_cancel_left]
    simp only [ok_bind]
    cases hprepare : prepare xRow with
    | error stop => rfl
    | ok a =>
      simp only [ok_bind]
      -- every row has a value, the same with both kernels
      have hvalue : ∀ o < outFeat, ∃ v, rowAt width (row a) w o = .ok v ∧
          rowAt width (row' a) w o = .ok v := by
        intro o ho
        obtain ⟨wRow, hwRow, hlength⟩ := slice_row ho hw
        obtain ⟨hsame, v, hv⟩ := hrow xRow a wRow hx hprepare hlength
        unfold rowAt
        rw [hwRow, ok_bind, ok_bind, hsame]
        exact ⟨v, hv, hv⟩
      have : Nonempty F := ⟨F32.zero⟩
      choose! v hv hv' using hvalue
      have hrows : (b + 1) * outFeat = b * outFeat + outFeat := by rw [Nat.add_mul, Nat.one_mul]
      by_cases hy : (b + 1) * outFeat ≤ y.length
      · have hlo : b * outFeat ≤ (b + 1) * outFeat := by omega
        have hout : ((y.drop (b * outFeat)).take ((b + 1) * outFeat - b * outFeat)).length = outFeat := by
          rw [List.length_take, List.length_drop]
          omega
        rw [rowLoop_ok hv (by omega), slice_of_le hlo hy, ok_bind,
          runTasks_ok (fun o ho => hv' o (by omega)), ok_bind, fill_all, hout, hrows]
        · rfl
        · intro o ho
          rw [hout]
          exact (taskRows_perm sched hgrain b).mem_iff.mpr (List.mem_range.mpr (by omega))
      · -- both run past the end of a short output
        have hpanic : (slice y (b * outFeat) ((b + 1) * outFeat) : Res (List F)) = panic .outOfRange := by
          unfold slice
          rw [if_neg (by omega)]
        have hpos : 0 < outFeat := by
          rcases Nat.eq_zero_or_pos outFeat with h | h
          · rw [h, Nat.mul_zero] at hy
            exact absurd (Nat.zero_le _) hy
          · exact h
        rw [hpanic]
        exact forFrom_storeAt_panic hv hpos (by omega)

/-! ### Row kernels on quantized activations -/

/-- The blocks of a whole row of activations. -/
theorem quantizeRow_ok {nSuper : Nat} {xRow : List F} (hx : xRow.length = nSuper * 256) :
    ∃ q : Nat → Q8Block F, (∀ s < nSuper, (q s).Bounded) ∧
      (∀ s < nSuper, (slice xRow (s * 256) ((s + 1) * 256) >>= quantizeBlockQ8) = .ok (q s)) ∧
      quantizeRow nSuper xRow = .ok ((List.range nSuper).map q) := by
  have heach : ∀ s < nSuper, ∃ q : Q8Block F, q.Bounded ∧
      (slice xRow (s * 256) ((s + 1) * 256) >>= quantizeBlockQ8) = .ok q := by
    intro s hs
    have hlength : ((xRow.drop (s * 256)).take ((s + 1) * 256 - s * 256)).length ≤ 256 := by
      rw [List.length_take]
      omega
    obtain ⟨q, hq, hbounded⟩ := quantizeBlockQ8_ok hlength
    refine ⟨q, hbounded, ?_⟩
    rw [slice_of_le (by omega) (by omega), ok_bind, hq]
  have : Nonempty (Q8Block F) := ⟨⟨F32.zero, Vector.replicate 256 0, Vector.replicate 8 0⟩⟩
  choose! q hbounded hq using heach
  exact ⟨q, hbounded, hq, collectRange_eq hq⟩

omit [F32 F] in
theorem blockDot_ok {size nSuper : Nat} (hsize : 0 < size)
    {dot : Vector UInt8 size → Q8Block F → Nat → Res F}
    (hdot : ∀ block q, q.Bounded → ∃ v, dot block q 256 = .ok v) {q : Nat → Q8Block F}
    (hq : ∀ s < nSuper, (q s).Bounded) {wRow : List UInt8} (hw : wRow.length = nSuper * size) :
    ∀ s < nSuper, ∃ v, blockDot dot ((List.range nSuper).map q) wRow s = .ok v := by
  intro s hs
  have hblocks : s < (blocksOf size wRow).length := by
    rw [length_blocksOf, hw, Nat.mul_div_cancel _ hsize]
    exact hs
  unfold blockDot
  rw [index_of_lt hblocks, ok_bind, index_of_lt (by simpa using hs), ok_bind]
  refine hdot _ _ ?_
  simpa using hq s hs

theorem treeRow_ok {size nSuper : Nat} (hsize : 0 < size)
    {dot : Vector UInt8 size → Q8Block F → Nat → Res F}
    (hdot : ∀ block q, q.Bounded → ∃ v, dot block q 256 = .ok v) {xRow : List F}
    (hx : xRow.length = nSuper * 256) {xq : List (Q8Block F)}
    (hxq : quantizeRow nSuper xRow = .ok xq) {wRow : List UInt8} (hw : wRow.length = nSuper * size) :
    ∃ v, treeRow dot nSuper xq wRow = .ok v := by
  obtain ⟨q, hbounded, -, hrow⟩ := quantizeRow_ok hx
  rw [hrow] at hxq
  cases hxq
  obtain ⟨parts, hparts, -⟩ := collectRange_ok (blockDot_ok hsize hdot hbounded hw)
  unfold treeRow
  rw [hparts, ok_bind]
  exact fixedTree_ok parts

theorem runningRow_ok {size nSuper : Nat} (hsize : 0 < size)
    {dot : Vector UInt8 size → Q8Block F → Nat → Res F}
    (hdot : ∀ block q, q.Bounded → ∃ v, dot block q 256 = .ok v) {xRow : List F}
    (hx : xRow.length = nSuper * 256) {xq : List (Q8Block F)}
    (hxq : quantizeRow nSuper xRow = .ok xq) {wRow : List UInt8} (hw : wRow.length = nSuper * size) :
    ∃ v, runningRow dot nSuper xq wRow = .ok v := by
  obtain ⟨q, hbounded, -, hrow⟩ := quantizeRow_ok hx
  rw [hrow] at hxq
  cases hxq
  obtain ⟨v, hv, -⟩ := @forFrom_ok Error F (fun _ _ => True) 0 nSuper
    (fun s sum => do
      let p ← blockDot dot ((List.range nSuper).map q) wRow s
      pure (F32.add sum p)) F32.zero trivial (by
    intro s sum _ hs _
    obtain ⟨v, hv⟩ := blockDot_ok hsize hdot hbounded hw s (by omega)
    rw [hv, ok_bind]
    exact ⟨_, rfl, trivial⟩)
  exact ⟨v, hv⟩

/-- The loop over the blocks from index `b` on collects their dot products. -/
private theorem integerParts_eq {nSuper : Nat} {x : List F} {q : Nat → Q8Block F} {p : Nat → F}
    (hq : ∀ s < nSuper, (slice x (s * 256) ((s + 1) * 256) >>= quantizeBlockQ8) = .ok (q s))
    (b : Nat) (blocks : List (Vector UInt8 144)) (hb : b + blocks.length = nSuper)
    (hp : ∀ i (h : i < blocks.length), dotQ4kQ8Block blocks[i] (q (b + i)) 256 = .ok (p (b + i)))
    (parts : List F) :
    integerParts x (nSuper * 256) b blocks parts =
      .ok (parts ++ (List.range' b blocks.length).map p) := by
  induction blocks generalizing b parts with
  | nil => rw [integerParts, List.length_nil, List.range'_zero, List.map_nil, List.append_nil]
  | cons block blocks ih =>
    rw [List.length_cons] at hb
    have hinside : ¬b * 256 ≥ nSuper * 256 := by omega
    have havail : min 256 (nSuper * 256 - b * 256) = 256 := by omega
    have hend : b * 256 + 256 = (b + 1) * 256 := by omega
    obtain ⟨xs, hxs, hquant⟩ := bind_eq_ok.mp (hq b (by omega))
    have hfirst : dotQ4kQ8Block block (q b) 256 = .ok (p b) := hp 0 (by simp)
    have hrest := ih (b + 1) (by omega) (fun i hi => by
      have := hp (i + 1) (by simpa using hi)
      rwa [List.getElem_cons_succ, ← Nat.add_assoc, Nat.add_right_comm] at this) (parts ++ [p b])
    unfold integerParts
    rw [if_neg hinside]
    simp only [havail, hend, hxs, hquant, hfirst, ok_bind, hrest]
    rw [List.length_cons, List.range'_succ, List.map_cons, List.append_assoc]
    rfl

/-- The integer row dot is the quantized row through the tree. -/
private theorem integerDotQ4k_eq {nSuper : Nat} {xRow : List F} {wRow : List UInt8}
    (hx : xRow.length = nSuper * 256) (hw : wRow.length = nSuper * 144) :
    integerDotQ4k xRow wRow (nSuper * 256) =
      (quantizeRow nSuper xRow >>= fun xq => treeRow dotQ4kQ8Block nSuper xq wRow) := by
  obtain ⟨q, hbounded, hq, hrow⟩ := quantizeRow_ok hx
  have hblocks : (blocksOf 144 wRow).length = nSuper := by
    rw [length_blocksOf, hw, Nat.mul_div_cancel _ (by decide)]
  have : Nonempty F := ⟨F32.zero⟩
  have hdots := blockDot_ok (by decide) (fun block q hq => dotQ4kQ8Block_ok block hq 256) hbounded hw
  choose! p hp using hdots
  have hparts : integerParts xRow (nSuper * 256) 0 (blocksOf 144 wRow) [] =
      .ok ([] ++ (List.range' 0 (blocksOf 144 wRow).length).map p) := by
    refine integerParts_eq hq 0 _ (by omega) (fun i hi => ?_) []
    have hi' : i < nSuper := by omega
    have hdot := hp i hi'
    unfold blockDot at hdot
    rw [index_of_lt hi, ok_bind, index_of_lt (by simpa using hi'), ok_bind] at hdot
    simpa using hdot
  rw [hrow, ok_bind, treeRow, collectRange_eq hp, ok_bind]
  unfold integerDotQ4k
  rw [if_neg (by omega)]
  split
  next hzero =>
    -- no super-block: the tree of nothing
    have hnone : nSuper = 0 := by omega
    subst hnone
    rfl
  next hsome => rw [hparts, ok_bind, hblocks, List.nil_append, ← List.range_eq_range']

/-! ### Every parallel linear is its serial twin -/

/-- Weights in memory that hold `out_feat` rows of super-blocks of `size` bytes. -/
structure HoldsRows (size inFeat outFeat : Nat) (w : List UInt8) : Prop where
  whole : inFeat % 256 = 0
  rows : outFeat * (inFeat / 256 * size) ≤ w.length
  memory : w.length < 2 ^ 63

theorem HoldsRows.features {size inFeat outFeat : Nat} {w : List UInt8}
    (h : HoldsRows size inFeat outFeat w) : inFeat = inFeat / 256 * 256 := by
  have hdiv := Nat.div_add_mod inFeat 256
  have hwhole := h.whole
  omega

theorem HoldsRows.word_need {size inFeat outFeat : Nat} {w : List UInt8}
    (h : HoldsRows size inFeat outFeat w) :
    (word (outFeat * (inFeat / 256 * size)) : Res Nat) = .ok (outFeat * (inFeat / 256 * size)) := by
  have hrows := h.rows
  have hmemory := h.memory
  refine word_of_lt ?_
  unfold wordSize
  omega

theorem HoldsRows.checkRows_ok {size inFeat outFeat : Nat} {w : List UInt8}
    (h : HoldsRows size inFeat outFeat w) (ragged short : String) :
    checkRows ragged short (inFeat / 256 * size) inFeat outFeat w = .ok () := by
  unfold checkRows
  rw [if_neg (not_not_intro h.whole), h.word_need, ok_bind, if_neg (Nat.not_lt.mpr h.rows)]
  rfl

private theorem linearParallel_eq {ω α : Type} {width inFeat outFeat grain : Nat}
    {prepare : List F → Res α} {row row' : α → List ω → Res F} (sched : Schedule) (hgrain : 0 < grain)
    {x : List F} {w : List ω} (hw : outFeat * width ≤ w.length)
    (hrow : ∀ xRow a wRow, xRow.length = inFeat → prepare xRow = .ok a → wRow.length = width →
      row' a wRow = row a wRow ∧ ∃ v, row a wRow = .ok v) (y : List F) (batch : Nat) :
    linearParallel width prepare row' sched grain x w y batch inFeat outFeat =
      linearRows width prepare row x w y batch inFeat outFeat :=
  forFrom_congr (fun _ => True) trivial
    (fun b y _ _ _ => (batchParallel_eq sched hgrain hw hrow b y).symm) fun _ _ _ _ _ => trivial

omit [F32 F] in
/-- The frame of the parallel linears, on weights that pass its checks. -/
private theorem parallelLinear_eq {size inFeat outFeat threads : Nat} {w : List UInt8}
    (h : HoldsRows size inFeat outFeat w) (hthreads : threads ≤ 2 ^ 32) {serial : Res (List F)}
    {tasks : Nat → Res (List F)} (htasks : ∀ grain, 0 < grain → tasks grain = serial)
    (ragged short : String) :
    parallelLinear ragged short (inFeat / 256 * size) serial tasks w inFeat outFeat threads = serial := by
  have hcount : (word (threads * 4) : Res Nat) = .ok (threads * 4) := by
    refine word_of_lt ?_
    unfold wordSize
    omega
  unfold parallelLinear
  rw [if_neg (not_not_intro h.whole), h.word_need, ok_bind, if_neg (Nat.not_lt.mpr h.rows), hcount,
    ok_bind, htasks _ (grainOf_pos _ _), ite_self]

/-- The integer linears, on weights that pass their checks. -/
private theorem integerParallel_eq {size inFeat outFeat grain : Nat} (hsize : 0 < size)
    {dot : Vector UInt8 size → Q8Block F → Nat → Res F}
    (hdot : ∀ block q, q.Bounded → ∃ v, dot block q 256 = .ok v) (sched : Schedule) (hgrain : 0 < grain)
    {x : List F} {w : List UInt8} (h : HoldsRows size inFeat outFeat w) (y : List F) (batch : Nat) :
    linearParallel (inFeat / 256 * size) (quantizeRow (inFeat / 256)) (treeRow dot (inFeat / 256))
      sched grain x w y batch inFeat outFeat =
    linearRows (inFeat / 256 * size) (quantizeRow (inFeat / 256)) (treeRow dot (inFeat / 256))
      x w y batch inFeat outFeat := by
  refine linearParallel_eq sched hgrain h.rows (fun xRow xq wRow hx hxq hwRow => ⟨rfl, ?_⟩) y batch
  exact treeRow_ok hsize hdot (hx.trans h.features) hxq hwRow

section Twins

variable (sched : Schedule) (x : List F) (w : List UInt8) (y : List F)
  (batch inFeat outFeat threads : Nat)

theorem linearQ4KIntegerParallel_eq (h : HoldsRows 144 inFeat outFeat w) (hthreads : threads ≤ 2 ^ 32) :
    linearQ4KIntegerParallel sched x w y batch inFeat outFeat threads =
      linearQ4KInteger x w y batch inFeat outFeat := by
  unfold linearQ4KIntegerParallel
  dsimp only
  refine parallelLinear_eq h hthreads (fun grain hgrain => ?_) _ _
  unfold linearQ4KInteger
  dsimp only
  rw [h.checkRows_ok, ok_bind]
  exact integerParallel_eq (by decide) (fun block q hq => dotQ4kQ8Block_ok block hq 256) sched hgrain
    h y batch

theorem linearQ6KIntegerParallel_eq (h : HoldsRows 210 inFeat outFeat w) (hthreads : threads ≤ 2 ^ 32) :
    linearQ6KIntegerParallel sched x w y batch inFeat outFeat threads =
      linearQ6KInteger x w y batch inFeat outFeat := by
  unfold linearQ6KIntegerParallel
  dsimp only
  refine parallelLinear_eq h hthreads (fun grain hgrain => ?_) _ _
  unfold linearQ6KInteger
  dsimp only
  rw [h.checkRows_ok, ok_bind]
  exact integerParallel_eq (by decide) (fun block q hq => dotQ6kQ8Block_ok block hq 256) sched hgrain
    h y batch

/-- A row of whole Q4_K super-blocks has a fused dot: nothing falls back. -/
theorem canonicalDotQ4kFused_row {xRow : List F} {wRow : List UInt8} {nSuper : Nat}
    (hx : xRow.length = nSuper * 256) (hw : wRow.length = nSuper * 144) :
    ∃ v, canonicalDotQ4kFused xRow wRow (nSuper * 256) = .ok v :=
  canonicalDotQ4kFused_ok (Nat.le_of_eq hx.symm) (by rw [hw, Nat.mul_mod_left])

theorem q6kFusedF32Dot_row {xRow : List F} {wRow : List UInt8} {nSuper : Nat}
    (hx : xRow.length = nSuper * 256) (hw : wRow.length = nSuper * 210) :
    ∃ v, q6kFusedF32Dot xRow wRow (nSuper * 256) = .ok v :=
  q6kFusedF32Dot_ok (Nat.le_of_eq hx.symm) (by rw [hw, Nat.mul_mod_left])
    (by rw [hw, Nat.mul_div_cancel _ (by decide)])

/-- The chunk tasks of the fused Q4_K linear. -/
theorem q4kFusedTasks_eq {grain : Nat} (h : HoldsRows 144 inFeat outFeat w) (hgrain : 0 < grain) :
    linearParallel (inFeat / 256 * 144) pure
        (fun xRow wRow => unwrapOr (canonicalDotQ4kFused xRow wRow inFeat) F32.zero)
        sched grain x w y batch inFeat outFeat =
      linearQ4KFused x w y batch inFeat outFeat := by
  unfold linearQ4KFused
  rw [if_neg (not_not_intro h.whole)]
  refine linearParallel_eq sched hgrain h.rows (fun xRow a wRow hx ha hw => ?_) y batch
  cases ha
  obtain ⟨v, hv⟩ := canonicalDotQ4kFused_row (hx.trans h.features) hw
  rw [← h.features] at hv
  exact ⟨by rw [hv, unwrapOr_ok], v, hv⟩

theorem linearQ4KFusedParallel_eq (h : HoldsRows 144 inFeat outFeat w) (hthreads : threads ≤ 2 ^ 32) :
    linearQ4KFusedParallel sched x w y batch inFeat outFeat threads =
      linearQ4KFused x w y batch inFeat outFeat := by
  unfold linearQ4KFusedParallel
  dsimp only
  exact parallelLinear_eq h hthreads (fun grain hgrain => q4kFusedTasks_eq sched x w y batch inFeat outFeat h hgrain) _ _

theorem linearQ6KFusedParallel_eq (h : HoldsRows 210 inFeat outFeat w) (hthreads : threads ≤ 2 ^ 32) :
    linearQ6KFusedParallel sched x w y batch inFeat outFeat threads =
      linearQ6KFused x w y batch inFeat outFeat := by
  unfold linearQ6KFusedParallel
  dsimp only
  refine parallelLinear_eq h hthreads (fun grain hgrain => ?_) _ _
  unfold linearQ6KFused
  dsimp only
  rw [h.checkRows_ok, ok_bind]
  refine linearParallel_eq sched hgrain h.rows (fun xRow a wRow hx ha hw => ?_) y batch
  cases ha
  obtain ⟨v, hv⟩ := q6kFusedF32Dot_row (hx.trans h.features) hw
  rw [← h.features] at hv
  exact ⟨by rw [hv, unwrapOr_ok], v, hv⟩

/-- The integer linear, row by row. -/
theorem linearQ4KInteger_rows (h : HoldsRows 144 inFeat outFeat w) :
    linearQ4KInteger x w y batch inFeat outFeat =
      linearRows (inFeat / 256 * 144) pure (fun xRow wRow => integerDotQ4k xRow wRow inFeat)
        x w y batch inFeat outFeat := by
  unfold linearQ4KInteger
  dsimp only
  rw [h.checkRows_ok, ok_bind]
  refine forFrom_congr (fun _ => True) trivial (fun b y _ _ _ => ?_) fun _ _ _ _ _ => trivial
  unfold batchRows
  cases hslice : (slice x (b * inFeat) ((b + 1) * inFeat) : Res (List F)) with
  | error stop => rfl
  | ok xRow =>
    have hx : xRow.length = inFeat / 256 * 256 := by
      rw [length_of_slice hslice, ← h.features, Nat.add_mul, Nat.one_mul, Nat.add_sub_cancel_left]
    obtain ⟨q, -, -, hxq⟩ := quantizeRow_ok hx
    simp only [ok_bind, hxq]
    refine forFrom_congr (fun _ => True) trivial (fun o y _ ho _ => ?_) fun _ _ _ _ _ => trivial
    obtain ⟨wRow, hwRow, hw⟩ := slice_row (ε := Error) (show o < outFeat by omega) h.rows
    have hdot := integerDotQ4k_eq hx hw
    rw [← h.features, hxq, ok_bind] at hdot
    simp only [storeAt, rowAt, hwRow, ok_bind, hdot]

end Twins

end VitniTensor
