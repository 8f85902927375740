import VitniTensor.Quant.ShortWeights
import VitniTensor.Model.CausalTotal

/-!
# The checks of a linear

What `linear_dispatch` and `embedding_row` depend on, for weights of any dtype and any number of bytes: a list of
conditions in the order of the code, each of which it tests or relies on.
-/

namespace VitniTensor

open Outcome Check

variable {F : Type} [F32 F]

/-- Room for a vector of floats. -/
def room (n : Nat) : Check :=
  .test (n * 4 < 2 ^ 63)

theorem checked_zeroVec (n : Nat) : Checked [room n] (·.length = n) (zeroVec n : Res (List F)) := by
  refine .single (fun h => ⟨_, zeroVec_of_lt h, List.length_replicate⟩) fun h => ?_
  exact ⟨_, zeroVec_of_ge (Nat.le_of_not_lt h), iff_of_true rfl rfl⟩

/-! ### Linears -/

/-- Rows of whole blocks, counted by the code. -/
def rowChecks (per size inFeat outFeat : Nat) (w : List UInt8) : List Check :=
  [.test (inFeat % per = 0), .trust (outFeat * (inFeat / per * size) < wordSize),
    .test (outFeat * (inFeat / per * size) ≤ w.length)]

/-- Whether the build hands the rows of a linear to tasks. -/
def Build.splits (build : Build) (outFeat : Nat) : Bool :=
  match build with
  | .serial => false
  | .stdParallel threads _ _ => decide (parMinRows ≤ outFeat ∧ 1 < threads)

/-- The serial linear of Q4_K relies on the number of rows, its parallel twin counts them. -/
def q4kChecks (build : Build) (inFeat outFeat : Nat) (w : List UInt8) : List Check :=
  if build.splits outFeat then rowChecks 256 144 inFeat outFeat w
  else [.test (inFeat % 256 = 0), .trust (outFeat * (inFeat / 256 * 144) ≤ w.length)]

def linearChecks (build : Build) (t : QuantTensor) (inFeat outFeat : Nat) (regime : UInt8) : List Check :=
  room outFeat ::
    match t.dtype with
    | .q4_0 => [.test (inFeat % 32 = 0), .trust (outFeat * (inFeat / 32) < wordSize),
        .trust (outFeat * (inFeat / 32) * 18 < wordSize), .test (t.bytes.length = outFeat * (inFeat / 32) * 18),
        room (outFeat * inFeat)]
    | .f32 => [.trust (outFeat * inFeat < wordSize), .trust (outFeat * inFeat * 4 < wordSize),
        .test (t.bytes.length = outFeat * inFeat * 4), .test (t.aligned = true)]
    | .q4_k => if regime = 3 then rowChecks 256 144 inFeat outFeat t.bytes else q4kChecks build inFeat outFeat t.bytes
    | .q6_k => rowChecks 256 210 inFeat outFeat t.bytes
    | .q8_0 => rowChecks 32 34 inFeat outFeat t.bytes
    | .q5_0 => rowChecks 32 22 inFeat outFeat t.bytes
    | .f16 | .other _ => [.test False]

section Linears

variable {x y : List F} {w : List UInt8} {inFeat outFeat : Nat}

omit [F32 F] in
theorem checked_checkRows {size : Nat} (ragged short : String) (hw : w.length < 2 ^ 63) :
    Checked (rowChecks 256 size inFeat outFeat w) (fun _ => HoldsRows size inFeat outFeat w)
      (checkRows ragged short (inFeat / 256 * size) inFeat outFeat w) := by
  unfold checkRows rowChecks
  refine .unless Iff.rfl fun hwhole => ?_
  refine (checked_word _).bind fun need hneed => ?_
  subst hneed
  exact .unless (Nat.not_le.symm) fun hrows => checked_ok ⟨hwhole, hrows, hw⟩

omit [F32 F] in
/-- A linear that returns has read all its rows. -/
theorem rows_of_linearRows {ω α : Type} {width : Nat} {prepare : List F → Res α} {row : α → List ω → Res F} {w : List ω}
    {y' : List F} (h : linearRows width prepare row x w y 1 inFeat outFeat = .ok y') : outFeat * width ≤ w.length := by
  by_cases hnone : outFeat = 0
  · rw [hnone, Nat.zero_mul]
    exact Nat.zero_le _
  obtain ⟨z, z', hbatch⟩ := forFrom_each h (i := 0) Nat.one_pos
  obtain ⟨xRow, -, hbatch⟩ := bind_eq_ok.mp hbatch
  obtain ⟨a, -, hrows⟩ := bind_eq_ok.mp hbatch
  -- the last row ends where the rows end
  obtain ⟨u, u', hlast⟩ := forFrom_each hrows (i := outFeat - 1) (by omega)
  obtain ⟨v, hv, -⟩ := bind_eq_ok.mp hlast
  obtain ⟨wRow, hslice, -⟩ := bind_eq_ok.mp hv
  obtain ⟨⟨-, hend⟩, -⟩ := slice_eq_ok.mp hslice
  rwa [Nat.zero_add, Nat.sub_add_cancel (Nat.pos_of_ne_zero hnone)] at hend

theorem checked_q4kFused (hw : w.length < 2 ^ 63) (hx : x.length = inFeat) (hy : y.length = outFeat) :
    Checked [.test (inFeat % 256 = 0), .trust (outFeat * (inFeat / 256 * 144) ≤ w.length)] (fun _ => True)
      (linearQ4KFused x w y 1 inFeat outFeat) := by
  have hfaults : inFeat % 256 = 0 → Faults (linearQ4KFused x w y 1 inFeat outFeat) := fun hwhole =>
    LinearCall.faults_q4kFused ⟨x, w, y, 1, inFeat, outFeat, 0, by rw [hx, Nat.one_mul], by rw [hy, Nat.one_mul], hw⟩ hwhole
  have hreturns := fun hwhole hrows => @linearQ4KFused_returns F _ x y w inFeat outFeat ⟨hwhole, hrows, hw⟩ hx hy
  unfold linearQ4KFused at hfaults hreturns ⊢
  refine .unless Iff.rfl fun hwhole => ?_
  -- past the test of the row width the linear has no error of its own
  simp only [hwhole, ne_eq, not_true_eq_false, if_false, true_implies] at hfaults hreturns
  refine hfaults.checked (fun hrows => ?_) fun y' => rows_of_linearRows
  obtain ⟨y', hy'⟩ := hreturns hrows
  exact ⟨y', hy', trivial⟩

omit [F32 F] in
/-- A parallel linear with tasks counts the rows. -/
theorem checked_parallelLinear {ragged short : String} {size threads : Nat} {serial : Res (List F)} {tasks : Nat → Res (List F)}
    (hw : w.length < 2 ^ 63) (hthreads : 1 < threads) (htotal : HoldsRows size inFeat outFeat w → ∃ y',
      parallelLinear ragged short (inFeat / 256 * size) serial tasks w inFeat outFeat threads = .ok y') :
    Checked (rowChecks 256 size inFeat outFeat w) (fun _ => True)
      (parallelLinear ragged short (inFeat / 256 * size) serial tasks w inFeat outFeat threads) := by
  unfold parallelLinear at htotal ⊢
  rw [if_neg (Nat.not_le_of_lt hthreads)] at htotal ⊢
  refine .unless Iff.rfl fun hwhole => ?_
  refine (checked_word _).bind fun need hneed => ?_
  subst hneed
  refine .unless (Nat.not_le.symm) fun hrows => ?_
  have hholds : HoldsRows size inFeat outFeat w := ⟨hwhole, hrows, hw⟩
  obtain ⟨y', hy'⟩ := htotal hholds
  rw [if_neg (not_not_intro hwhole), hholds.word_need, ok_bind, if_neg (Nat.not_lt.mpr hrows)] at hy'
  exact .of_ok hy' trivial

theorem checked_dispatchQ4K (build : Build) (hw : w.length < 2 ^ 63) (hx : x.length = inFeat) (hy : y.length = outFeat) :
    Checked (q4kChecks build inFeat outFeat w) (fun _ => True) (dispatchQ4K build x w inFeat outFeat y) := by
  unfold q4kChecks dispatchQ4K Build.splits
  cases build with
  | serial => exact checked_q4kFused hw hx hy
  | stdParallel threads sched few =>
    dsimp only
    by_cases hmany : outFeat ≥ parMinRows
    · rw [if_pos hmany]
      by_cases hthreads : 1 < threads
      · rw [if_pos (decide_eq_true ⟨hmany, hthreads⟩)]
        unfold linearQ4KFusedParallel
        refine checked_parallelLinear hw hthreads fun hholds => ?_
        obtain ⟨y', hy'⟩ := linearQ4KFused_returns hholds hx hy
        exact ⟨y', (linearQ4KFusedParallel_eq sched x w y 1 inFeat outFeat threads hholds few).trans hy'⟩
      · rw [if_neg (by simp [hthreads])]
        -- on one thread the parallel linear is the serial one, behind the same test
        unfold linearQ4KFusedParallel parallelLinear
        dsimp only
        rw [if_pos (Nat.le_of_not_lt hthreads)]
        exact .again Iff.rfl (checked_q4kFused hw hx hy)
    · rw [if_neg (by simp [hmany]), if_neg hmany]
      exact checked_q4kFused hw hx hy

theorem checked_dispatchQ6K (build : Build) (hw : w.length < 2 ^ 63) (hx : x.length = inFeat) (hy : y.length = outFeat) :
    Checked (rowChecks 256 210 inFeat outFeat w) (fun _ => True) (dispatchQ6K build x w inFeat outFeat y) := by
  have hserial : Checked (rowChecks 256 210 inFeat outFeat w) (fun _ => True) (linearQ6KInteger x w y 1 inFeat outFeat) :=
    Checked.whole (checked_checkRows _ _ hw) fun _ hholds => linearQ6KInteger_returns hholds hx hy
  unfold dispatchQ6K
  cases build with
  | serial => exact hserial
  | stdParallel threads sched few =>
    dsimp only
    by_cases hmany : outFeat ≥ parMinRows
    · rw [if_pos hmany]
      by_cases hthreads : 1 < threads
      · unfold linearQ6KIntegerParallel
        refine checked_parallelLinear hw hthreads fun hholds => ?_
        obtain ⟨y', hy'⟩ := linearQ6KInteger_returns hholds hx hy
        exact ⟨y', (linearQ6KIntegerParallel_eq sched x w y 1 inFeat outFeat threads hholds few).trans hy'⟩
      · -- on one thread the parallel linear is the serial one, behind the same test
        unfold linearQ6KIntegerParallel parallelLinear
        dsimp only
        rw [if_pos (Nat.le_of_not_lt hthreads)]
        exact .again Iff.rfl hserial
    · rwa [if_neg hmany]

theorem checked_linearByRow {size : Nat} (hsize : 0 < size) {ragged small label : String} {decode : Vector UInt8 size → List F}
    (hdecode : ∀ block, (decode block).length = 32) (hw : w.length < 2 ^ 63) (hin : inFeat * 4 < 2 ^ 63)
    (hx : x.length = inFeat) (hy : y.length = outFeat) :
    Checked (rowChecks 32 size inFeat outFeat w) (fun _ => True)
      (linearByRow (blockRowBytes ragged size) small (dequantize size 32 label decode) x w inFeat outFeat y) := by
  have htotal := fun hrowBytes hwhole hrows => @linearByRow_returns F _ x y w inFeat outFeat size hsize
    (blockRowBytes ragged size) small label decode hdecode hrowBytes hwhole hrows hw hin hx hy
  unfold linearByRow at htotal ⊢
  have hbytes : Checked [.test (inFeat % 32 = 0)] (fun n => inFeat % 32 = 0 ∧ n = inFeat / 32 * size)
      (blockRowBytes ragged size inFeat) := .unless Iff.rfl fun hwhole => checked_ok ⟨hwhole, rfl⟩
  refine hbytes.bind fun rowBytes hrowBytes => ?_
  obtain ⟨hwhole, rfl⟩ := hrowBytes
  refine (checked_word _).bind fun need hneed => ?_
  subst hneed
  refine .unless (Nat.not_le.symm) fun hrows => ?_
  obtain ⟨y', hy'⟩ := htotal (if_neg (not_not_intro hwhole)) hwhole hrows
  rw [show blockRowBytes ragged size inFeat = .ok (inFeat / 32 * size) from if_neg (not_not_intro hwhole), ok_bind,
    word_of_lt (by unfold wordSize; omega), ok_bind, if_neg (Nat.not_lt.mpr hrows)] at hy'
  exact .of_ok hy' trivial

theorem checked_linearF32 {t : QuantTensor} (hw : t.bytes.length < 2 ^ 63) (hx : x.length = inFeat)
    (hy : y.length = outFeat) :
    Checked [.trust (outFeat * inFeat < wordSize), .trust (outFeat * inFeat * 4 < wordSize),
      .test (t.bytes.length = outFeat * inFeat * 4), .test (t.aligned = true)] (fun _ => True)
      (linearF32 x t inFeat outFeat y) := by
  have htotal := fun hsize haligned => @linearF32_returns F _ x y inFeat outFeat t hsize hw haligned hx hy
  unfold linearF32 at htotal ⊢
  refine (checked_word _).bind fun numel hnumel => ?_
  subst hnumel
  refine (checked_word _).bind fun need hneed => ?_
  subst hneed
  refine .unless Iff.rfl fun hsize => ?_
  have hview : Checked [.test (t.aligned = true)] (fun _ => t.aligned = true) (f32View t.bytes t.aligned : Res (List F)) := by
    unfold f32View
    rw [if_neg (by omega)]
    exact .unless (by simp) fun haligned => checked_ok haligned
  refine Checked.whole hview fun _ haligned => ?_
  obtain ⟨y', hy'⟩ := htotal hsize haligned
  rw [word_of_lt (by unfold wordSize; omega), ok_bind, word_of_lt (by unfold wordSize; omega), ok_bind,
    if_neg (not_not_intro hsize)] at hy'
  exact ⟨y', hy'⟩

theorem checked_dequantize {per size : Nat} (hsize : 0 < size) {label : String} {decode : Vector UInt8 size → List F}
    (hdecode : ∀ block, (decode block).length = per) {blocks n : Nat} (hlength : w.length = blocks * size)
    (hn : blocks * per = n) : Checked [room n] (fun out => out.length = n ∧ n * 4 < 2 ^ 63)
      (dequantize size per label decode w) := by
  have hwhole : w.length % size = 0 := by rw [hlength, Nat.mul_mod_left]
  have hblocks : w.length / size = blocks := by rw [hlength, Nat.mul_div_cancel _ hsize]
  subst hn
  refine .single (fun h => ?_) fun h => ?_
  · rw [← hblocks] at h ⊢
    obtain ⟨out, hout, hcount⟩ := dequantize_ok hdecode hwhole h
    exact ⟨out, hout, hcount, h⟩
  · exact ⟨_, dequantize_large hwhole (by rw [hblocks]; exact Nat.le_of_not_lt h), iff_of_true rfl rfl⟩

theorem checked_linearQ4_0Cpu (hw : w.length < 2 ^ 63) (hin : inFeat * 4 < 2 ^ 63) (hout : outFeat * 4 < 2 ^ 63)
    (hx : x.length = inFeat) (hy : y.length = outFeat) :
    Checked [.test (inFeat % 32 = 0), .trust (outFeat * (inFeat / 32) < wordSize),
      .trust (outFeat * (inFeat / 32) * 18 < wordSize), .test (w.length = outFeat * (inFeat / 32) * 18),
      room (outFeat * inFeat)] (fun _ => True) (linearQ4_0Cpu x w y 1 inFeat outFeat) := by
  have htotal := fun hwhole hlength hdecoded => @linearQ4_0Cpu_returns F _ x y w inFeat outFeat hwhole hlength hw hdecoded hx hy hin hout
  have hxs : inFeat < wordSize := lt_wordSize hin
  have hys : outFeat < wordSize := lt_wordSize hout
  unfold linearQ4_0Cpu at htotal ⊢
  refine .unless Iff.rfl fun hwhole => ?_
  refine (checked_word _).bind fun blocks hblocks => ?_
  subst hblocks
  refine (checked_word _).bind fun need hneed => ?_
  subst hneed
  refine .unless Iff.rfl fun hlength => ?_
  rw [Nat.one_mul, Nat.one_mul, word_of_lt hxs, ok_bind, if_neg (not_not_intro hx), word_of_lt hys, ok_bind,
    if_neg (not_not_intro hy)]
  have hcount : outFeat * (inFeat / 32) * 32 = outFeat * inFeat := by
    rw [Nat.mul_assoc, Nat.div_mul_cancel (Nat.dvd_of_mod_eq_zero hwhole)]
  unfold dequantizeQ4_0 at htotal ⊢
  refine Checked.whole (checked_dequantize (by decide) length_q4_0Weights hlength hcount) fun wF32 hmemory => ?_
  obtain ⟨y', hy'⟩ := htotal hwhole (by rw [hlength, Nat.mul_assoc]) hmemory.2
  rw [if_neg (not_not_intro hwhole), word_of_lt (by unfold wordSize; omega), ok_bind,
    word_of_lt (by unfold wordSize; omega), ok_bind, if_neg (not_not_intro hlength), Nat.one_mul, Nat.one_mul,
    word_of_lt hxs, ok_bind, if_neg (not_not_intro hx), word_of_lt hys, ok_bind, if_neg (not_not_intro hy)] at hy'
  exact ⟨y', hy'⟩

/-- The linear of a step, on weights of any size. -/
theorem checked_linear (build : Build) {t : QuantTensor} (hw : t.bytes.length < 2 ^ 63) (hin : inFeat * 4 < 2 ^ 63)
    (hx : x.length = inFeat) (regime : UInt8) :
    Checked (linearChecks build t inFeat outFeat regime) (fun y => y.length = outFeat ∧ outFeat * 4 < 2 ^ 63)
      (linearDispatch build x t inFeat outFeat regime) := by
  have hzeros : Checked [room outFeat] (fun y : List F => y.length = outFeat ∧ outFeat * 4 < 2 ^ 63) (zeroVec outFeat) :=
    (checked_zeroVec outFeat).value fun y hy => ⟨length_zeroVec hy, zeroVec_eq_ok hy⟩
  refine Checked.value (hzeros.bind (W := fun _ => True) fun y hy => ?_) fun y hy => ⟨length_linearDispatch hy, linearDispatch_fits hy⟩
  obtain ⟨hy, hout⟩ := hy
  unfold linearArms
  cases hdtype : t.dtype with
  | q4_0 => exact checked_linearQ4_0Cpu hw hin hout hx hy
  | f32 => exact checked_linearF32 hw hx hy
  | q4_k =>
    dsimp only
    by_cases hregime : regime = 3
    · rw [if_pos hregime, if_pos hregime]
      exact Checked.whole (checked_checkRows _ _ hw) fun _ hholds => linearQ4KIntegerRs_returns hholds hx hy
    · rw [if_neg hregime, if_neg hregime]
      exact checked_dispatchQ4K build hw hx hy
  | q6_k =>
    dsimp only
    by_cases hregime : regime = 3
    · rw [if_pos hregime]
      exact Checked.whole (checked_checkRows _ _ hw) fun _ hholds => linearQ6KIntegerRs_returns hholds hx hy
    · rw [if_neg hregime]
      exact checked_dispatchQ6K build hw hx hy
  | q8_0 => exact checked_linearByRow (by decide) length_q8_0Weights hw hin hx hy
  | q5_0 => exact checked_linearByRow (by decide) length_q5_0Weights hw hin hx hy
  | f16 => exact checked_refused _
  | other raw => exact checked_refused _

end Linears

/-! ### Lookups -/

/-- The blocks of a row, and room for its floats. -/
def blockLookupChecks (per size : Nat) (table : List UInt8) (row dim : Nat) : List Check :=
  [.test (dim % per = 0), .trust (row * (dim / per) < wordSize), .trust (row * (dim / per) * size < wordSize),
    .trust (dim / per * size < wordSize), .trust (row * (dim / per) * size + dim / per * size < wordSize),
    .test (row * (dim / per) * size + dim / per * size ≤ table.length), room dim]

def lookupChecks (t : QuantTensor) (row dim : Nat) : List Check :=
  match t.dtype with
  | .f32 => [.trust ((row + 1) * dim < wordSize), .trust ((row + 1) * dim * 4 < wordSize),
      .test ((row + 1) * dim * 4 ≤ t.bytes.length), .test (t.bytes.length % 4 = 0), .test (t.aligned = true)]
  | .q4_0 => blockLookupChecks 32 18 t.bytes row dim
  | .q4_k => blockLookupChecks 256 144 t.bytes row dim
  | .q6_k => blockLookupChecks 256 210 t.bytes row dim
  | .q5_0 => blockLookupChecks 32 22 t.bytes row dim
  | .q8_0 => blockLookupChecks 32 34 t.bytes row dim
  | .f16 | .other _ => [.test False]

section Lookups

variable {row dim : Nat}

theorem checked_embeddingBlocks {per size : Nat} (hsize : 0 < size) {ragged past label : String}
    {decode : Vector UInt8 size → List F} (hdecode : ∀ block, (decode block).length = per) (table : List UInt8) :
    Checked (blockLookupChecks per size table row dim) (fun xs => xs.length = dim ∧ dim * 4 < 2 ^ 63)
      (embeddingBlocks per size ragged past (dequantize size per label decode) table row dim) := by
  unfold embeddingBlocks blockLookupChecks
  refine .unless Iff.rfl fun hwhole => ?_
  refine (checked_word _).bind fun start hstart => ?_
  subst hstart
  refine (checked_word _).bind fun rowStart hrowStart => ?_
  subst hrowStart
  refine (checked_word _).bind fun width hwidth => ?_
  subst hwidth
  refine (checked_word _).bind fun rowEnd hrowEnd => ?_
  subst hrowEnd
  refine .unless (Nat.not_le.symm) fun hinside => ?_
  rw [slice_of_le (Nat.le_add_right _ _) hinside, ok_bind]
  -- the row is whole blocks, and its floats are the last thing that needs room
  have hlength : ((table.drop (row * (dim / per) * size)).take (dim / per * size)).length = dim / per * size := by
    rw [List.length_take, List.length_drop]
    omega
  rw [Nat.add_sub_cancel_left]
  have hn : dim / per * per = dim := Nat.div_mul_cancel (Nat.dvd_of_mod_eq_zero hwhole)
  exact checked_dequantize hsize hdecode hlength hn

/-- The row of a token, in a table of any size. -/
theorem checked_lookup {t : QuantTensor} (hw : t.bytes.length < 2 ^ 63) :
    Checked (lookupChecks t row dim) (fun xs => xs.length = dim ∧ dim * 4 < 2 ^ 63)
      (embeddingRow t row dim : Res (List F)) := by
  unfold embeddingRow lookupChecks
  cases hdtype : t.dtype with
  | f32 =>
    dsimp only
    refine (checked_word _).bind fun numel hnumel => ?_
    subst hnumel
    refine (checked_word _).bind fun need hneed => ?_
    subst hneed
    refine .unless (Nat.not_le.symm) fun hinside => ?_
    have hview : Checked [.test (t.bytes.length % 4 = 0), .test (t.aligned = true)]
        (fun xs : List F => xs.length = t.bytes.length / 4) (f32View t.bytes t.aligned) := by
      refine Checked.value (V := fun _ => True) ?_ fun xs => f32View_eq_ok
      unfold f32View
      exact .unless Iff.rfl fun _ => .unless (by simp) fun _ => checked_ok trivial
    refine hview.before fun xs hxs => ?_
    have hrow : (row + 1) * dim = row * dim + dim := Nat.succ_mul row dim
    rw [hrow, slice_of_le (Nat.le_add_right _ _) (by omega), Nat.add_sub_cancel_left]
    exact checked_ok ⟨by rw [List.length_take, List.length_drop]; omega, by omega⟩
  | f16 => exact checked_refused _
  | other raw => exact checked_refused _
  | q4_0 => exact checked_embeddingBlocks (by decide) length_q4_0Weights t.bytes
  | q4_k => exact checked_embeddingBlocks (by decide) length_q4kWeights t.bytes
  | q6_k => exact checked_embeddingBlocks (by decide) length_q6kWeights t.bytes
  | q5_0 => exact checked_embeddingBlocks (by decide) length_q5_0Weights t.bytes
  | q8_0 => exact checked_embeddingBlocks (by decide) length_q8_0Weights t.bytes

end Lookups

end VitniTensor
