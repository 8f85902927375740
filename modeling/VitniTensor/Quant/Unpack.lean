import VitniTensor.Lib.Fill
import VitniTensor.Lib.Rows
import VitniTensor.Quant.Canonical
import VitniTensor.Quant.Fused

/-!
# The fused kernels in place

The kernels unpack every super-block into one buffer that they keep, with loops of their own,
and carry their lanes and chunk sums past the ends of super-blocks. They compute what the
dequantizers and the plain reduction compute.
-/

namespace VitniTensor

open Outcome Fill Rows

variable {F : Type} [F32 F]

/-! ### Unpacking -/

/-- The Q4_K kernel's unpacking loops, which overwrite `buf`. -/
def q4kUnpack (block : Vector UInt8 144) (buf : List F) : Res (List F) :=
  let d : F := f16Le (getElem block 0 Offset.q4k_d0) (getElem block 1 Offset.q4k_d1)
  let dmin : F := f16Le (getElem block 2 Offset.q4k_dmin0) (getElem block 3 Offset.q4k_dmin1)
  let scales := q4kScales block
  (List.finRange 4).foldlM (fun buf (turn : Fin 4) => do
    let y := 64 * turn.val
    let (sc1, m1) := getScaleMinK4 ⟨2 * turn, Offset.pair_low turn⟩ scales
    let (sc2, m2) := getScaleMinK4 ⟨2 * turn + 1, Offset.pair_high turn⟩ scales
    let d1 := F32.mul d (F32.ofInt sc1.toNat)
    let m1f := F32.mul dmin (F32.ofInt m1.toNat)
    let d2 := F32.mul d (F32.ofInt sc2.toNat)
    let m2f := F32.mul dmin (F32.ofInt m2.toNat)
    let buf ← (List.finRange 32).foldlM (fun buf (l : Fin 32) =>
      let q := lowNibble (getElem block (16 + 32 * turn.val + l.val) (Offset.q4k_qs turn l))
      store buf (y + l) (F32.sub (F32.mul d1 (F32.ofInt q)) m1f)) buf
    (List.finRange 32).foldlM (fun buf (l : Fin 32) =>
      let q := highNibble (getElem block (16 + 32 * turn.val + l.val) (Offset.q4k_qs turn l))
      store buf (y + 32 + l) (F32.sub (F32.mul d2 (F32.ofInt q)) m2f)) buf) buf

/-- The Q6_K kernel's unpacking loops: four cells a turn, in different quarters of a half. -/
def q6kUnpack (block : Vector UInt8 210) (buf : List F) : Res (List F) :=
  let d : F := f16Le (getElem block 208 Offset.q6k_d0) (getElem block 209 Offset.q6k_d1)
  (List.finRange 2).foldlM (fun buf (half : Fin 2) =>
    (List.finRange 32).foldlM (fun buf (l : Fin 32) => do
      let y := 128 * half.val
      let s1 : F := F32.ofInt (q6kScale block ⟨8 * half + l / 16, by omega⟩)
      let s2 : F := F32.ofInt (q6kScale block ⟨8 * half + l / 16 + 2, by omega⟩)
      let s3 : F := F32.ofInt (q6kScale block ⟨8 * half + l / 16 + 4, by omega⟩)
      let s4 : F := F32.ofInt (q6kScale block ⟨8 * half + l / 16 + 6, by omega⟩)
      let buf ← store buf (y + l) (F32.mul (F32.mul d s1) (F32.ofInt (q6kCode block half 0 l)))
      let buf ← store buf (y + l + 32) (F32.mul (F32.mul d s2) (F32.ofInt (q6kCode block half 1 l)))
      let buf ← store buf (y + l + 64) (F32.mul (F32.mul d s3) (F32.ofInt (q6kCode block half 2 l)))
      store buf (y + l + 96) (F32.mul (F32.mul d s4) (F32.ofInt (q6kCode block half 3 l)))) buf) buf

/-! ### The buffer holds the decoded super-block -/

/-- `x` is cell `c` of the list. -/
private theorem eq_getD {xs : List F} {c : Nat} {a : F} (h : xs[c]? = some a) :
    a = xs.getD c F32.zero := by
  rw [List.getD_eq_getElem?_getD, h, Option.getD_some]

/-- Writing every cell of a list over a buffer of its length. -/
private theorem fill_getD {xs buf : List F} {cells : List Nat} (hbuf : buf.length = xs.length)
    (hcells : ∀ i < xs.length, i ∈ cells) : fill (fun c => xs.getD c F32.zero) cells buf = xs := by
  rw [fill_all fun i hi => hcells i (by omega)]
  refine List.ext_getElem? fun i => ?_
  rw [List.getElem?_map]
  by_cases hi : i < xs.length
  · rw [List.getElem?_range (by omega), Option.map_some, ← eq_getD (List.getElem?_eq_getElem hi),
      List.getElem?_eq_getElem hi]
  · rw [List.getElem?_eq_none (by rw [List.length_range]; omega), List.getElem?_eq_none (by omega)]
    rfl

theorem q4kUnpack_eq (block : Vector UInt8 144) {buf : List F} (hbuf : buf.length = 256) :
    q4kUnpack block buf = .ok (q4kWeights block) := by
  have hweights : buf.length = (q4kWeights block : List F).length := by rw [length_q4kWeights, hbuf]
  unfold q4kUnpack
  rw [foldlM_fill (fun c => (q4kWeights block).getD c F32.zero) fun turn : Fin 4 =>
    ((List.finRange 32).flatMap fun l => [64 * turn.val + l.val]) ++
      ((List.finRange 32).flatMap fun l => [64 * turn.val + 32 + l.val])]
  · refine congrArg Except.ok (fill_getD hweights fun i hi => ?_)
    rw [length_q4kWeights] at hi
    rw [List.mem_flatMap]
    refine ⟨⟨i / 64, by omega⟩, List.mem_finRange _, ?_⟩
    rw [List.mem_append, List.mem_flatMap, List.mem_flatMap]
    by_cases hlow : i % 64 < 32
    · exact .inl ⟨⟨i % 64, hlow⟩, List.mem_finRange _, List.mem_singleton.mpr (by simp only; omega)⟩
    · exact .inr ⟨⟨i % 64 - 32, by omega⟩, List.mem_finRange _, List.mem_singleton.mpr (by simp only; omega)⟩
  · intro turn _ z hz
    dsimp only
    rw [foldlM_fill (fun c => (q4kWeights block).getD c F32.zero) fun l : Fin 32 => [64 * turn.val + l.val],
      ok_bind,
      foldlM_fill (fun c => (q4kWeights block).getD c F32.zero) fun l : Fin 32 => [64 * turn.val + 32 + l.val],
      fill_append]
    · intro l _ z' hz'
      refine store_fill (by rw [hz', length_fill]; omega) (eq_getD ?_)
      unfold q4kWeights
      dsimp only
      rw [Nat.mul_comm 64, Nat.add_assoc, getElem?_flatMap (by simp) _ _ (by omega)]
      rw [getElem?_finRange turn.isLt, Option.bind_some]
      rw [List.getElem?_append_right (by simp)]
      simp
    · intro l _ z' hz'
      refine store_fill (by omega) (eq_getD ?_)
      unfold q4kWeights
      dsimp only
      rw [Nat.mul_comm 64, getElem?_flatMap (by simp) _ _ (by omega)]
      rw [getElem?_finRange turn.isLt, Option.bind_some]
      rw [List.getElem?_append_left (by simp)]
      simp

/-- A store of element `l + 32 * k` of a half. -/
private theorem store_q6k (block : Vector UInt8 210) (half : Fin 2) (k : Fin 4) (l : Fin 32) (c : Nat)
    (j : Fin 16) {y : List F} (hy : y.length = 256) (hc : c = half.val * 128 + (k.val * 32 + l.val))
    (hj : j.val = 8 * half + (l / 16 + 2 * k)) :
    (store y c (F32.mul (F32.mul (f16Le block[208] block[209]) (F32.ofInt (q6kScale block j)))
      (F32.ofInt (q6kCode block half k l))) : Res (List F)) =
      .ok (fill (fun c => (q6kWeights block).getD c F32.zero) [c] y) := by
  refine store_fill (by omega) (eq_getD ?_)
  have hscale : j = ⟨8 * half + (l / 16 + 2 * k), by omega⟩ := Fin.ext hj
  unfold q6kWeights
  dsimp only
  rw [hc, getElem?_flatMap (by simp [List.length_flatMap]) _ _ (by omega),
    getElem?_finRange half.isLt, Option.bind_some, getElem?_flatMap (by simp) _ _ (by omega),
    getElem?_finRange k.isLt, Option.bind_some, List.getElem?_map, getElem?_finRange l.isLt, Option.map_some, hscale]

theorem q6kUnpack_eq (block : Vector UInt8 210) {buf : List F} (hbuf : buf.length = 256) :
    q6kUnpack block buf = .ok (q6kWeights block) := by
  have hweights : buf.length = (q6kWeights block : List F).length := by rw [length_q6kWeights, hbuf]
  unfold q6kUnpack
  rw [foldlM_fill (fun c => (q6kWeights block).getD c F32.zero) fun half : Fin 2 =>
    (List.finRange 32).flatMap fun l => [128 * half.val + l.val, 128 * half.val + l.val + 32,
      128 * half.val + l.val + 64, 128 * half.val + l.val + 96]]
  · refine congrArg Except.ok (fill_getD hweights fun i hi => ?_)
    rw [length_q6kWeights] at hi
    rw [List.mem_flatMap]
    refine ⟨⟨i / 128, by omega⟩, List.mem_finRange _, ?_⟩
    rw [List.mem_flatMap]
    refine ⟨⟨i % 32, by omega⟩, List.mem_finRange _, ?_⟩
    simp only [List.mem_cons, List.not_mem_nil, or_false]
    omega
  · intro half _ z hz
    refine foldlM_fill _ _ fun l _ z' hz' => ?_
    dsimp only
    rw [store_q6k block half 0 l (128 * half + l) ⟨8 * half + l / 16, by omega⟩ (by omega)
        (by simp; omega) (by simp), ok_bind,
      store_q6k block half 1 l (128 * half + l + 32) ⟨8 * half + l / 16 + 2, by omega⟩
        (by simp only [length_fill]; omega) (by simp; omega) (by simp; omega), ok_bind,
      store_q6k block half 2 l (128 * half + l + 64) ⟨8 * half + l / 16 + 4, by omega⟩
        (by simp only [length_fill]; omega) (by simp; omega) (by simp; omega), ok_bind,
      store_q6k block half 3 l (128 * half + l + 96) ⟨8 * half + l / 16 + 6, by omega⟩
        (by simp only [length_fill]; omega) (by simp; omega) (by simp; omega)]
    rfl

/-! ### The kernels with their buffer -/

/-- The loop over the super-blocks, which unpacks each one over the last. -/
def fusedLoopInPlace {size : Nat} (unpack : Vector UInt8 size → List F → Res (List F)) (x : List F)
    (n : Nat) : (b : Nat) → List (Vector UInt8 size) → List F → List F × List F → Res (List F × List F)
  | _, [], _, s => .ok s
  | b, block :: blocks, buf, s =>
    if b * 256 ≥ n then .ok s
    else do
      let buf ← unpack block buf
      let s ← fusedStep x buf n b s
      fusedLoopInPlace unpack x n (b + 1) blocks buf s

def fusedRowInPlace {size : Nat} (unpack : Vector UInt8 size → List F → Res (List F)) (x : List F)
    (w : List UInt8) (n : Nat) : Res F := do
  let buf := List.replicate 256 F32.zero
  let s ← fusedLoopInPlace unpack x n 0 (blocksOf size w) buf (zeroLanes, [])
  fixedTree s.2

def canonicalDotQ4kInPlace (x : List F) (w : List UInt8) (n : Nat) : Res F :=
  if w.length % 144 ≠ 0 then .error (.err (.internal "Q4_K byte length not a multiple of 144"))
  else if n = 0 then .ok F32.zero
  else fusedRowInPlace q4kUnpack x w n

def q6kFusedF32DotInPlace (x : List F) (w : List UInt8) (n : Nat) : Res F :=
  if w.length % 210 ≠ 0 then .error (.err (.internal "Q6_K byte length not a multiple of 210"))
  else if n = 0 then .ok F32.zero
  else if w.length / 210 * 256 < n then .error (.err (.internal "Q6_K row shorter than n"))
  else fusedRowInPlace q6kUnpack x w n

/-- What the buffer held before does not matter. -/
private theorem fusedLoopInPlace_eq {size : Nat} {unpack : Vector UInt8 size → List F → Res (List F)}
    {decode : Vector UInt8 size → List F} (hdecode : ∀ block, (decode block).length = 256)
    (hunpack : ∀ block buf, buf.length = 256 → unpack block buf = .ok (decode block)) (x : List F) (n b : Nat)
    (blocks : List (Vector UInt8 size)) {buf : List F} (hbuf : buf.length = 256) (s : List F × List F) :
    fusedLoopInPlace unpack x n b blocks buf s = fusedLoop decode x n b blocks s := by
  induction blocks generalizing b buf s with
  | nil => rfl
  | cons block blocks ih =>
    unfold fusedLoopInPlace fusedLoop
    rw [hunpack block buf hbuf]
    split
    next => rfl
    next =>
      rw [ok_bind]
      cases fusedStep x (decode block) n b s with
      | error e => rfl
      | ok s' => exact ih (b + 1) (hdecode block) s'

private theorem fusedRowInPlace_eq {size : Nat} {unpack : Vector UInt8 size → List F → Res (List F)}
    {decode : Vector UInt8 size → List F} (hdecode : ∀ block, (decode block).length = 256)
    (hunpack : ∀ block buf, buf.length = 256 → unpack block buf = .ok (decode block)) (x : List F)
    (w : List UInt8) (n : Nat) : fusedRowInPlace unpack x w n = fusedRow decode x w n := by
  unfold fusedRowInPlace fusedRow
  dsimp only
  rw [fusedLoopInPlace_eq hdecode hunpack x n 0 _ List.length_replicate]

theorem canonicalDotQ4kInPlace_eq (x : List F) (w : List UInt8) (n : Nat) :
    canonicalDotQ4kInPlace x w n = canonicalDotQ4kFused x w n := by
  unfold canonicalDotQ4kInPlace canonicalDotQ4kFused
  rw [fusedRowInPlace_eq length_q4kWeights fun block _ hbuf => q4kUnpack_eq block hbuf]

theorem q6kFusedF32DotInPlace_eq (x : List F) (w : List UInt8) (n : Nat) :
    q6kFusedF32DotInPlace x w n = q6kFusedF32Dot x w n := by
  unfold q6kFusedF32DotInPlace q6kFusedF32Dot
  rw [fusedRowInPlace_eq length_q6kWeights fun block _ hbuf => q6kUnpack_eq block hbuf]

/-! ### Lanes that run on across super-blocks -/

/-- What the kernel has folded before super-block `b`: the chunks that ended, and the lanes of
the open one. -/
def fusedState (v : Nat → F) (n b : Nat) : List F × List F :=
  let c := b / supersPerChunk
  (lanesOf v (List.range' (c * canonChunk) (b * 256 - c * canonChunk)),
    (List.range c).map (chunkSum v n))

private theorem chunk_start_le (b : Nat) : b / supersPerChunk * canonChunk ≤ b * 256 := by
  unfold supersPerChunk canonChunk
  omega

private theorem avail_cases {n base : Nat} (hb : base < n) : ∃ avail, min 256 (n - base) = avail ∧
    (avail = 256 ∧ base + 256 ≤ n ∨ base + avail = n ∧ avail < 256) := by
  by_cases hfull : 256 ≤ n - base
  · exact ⟨256, Nat.min_eq_left hfull, .inl ⟨rfl, by omega⟩⟩
  · refine ⟨n - base, Nat.min_eq_right (Nat.le_of_not_le hfull), .inr ⟨?_, Nat.lt_of_not_le hfull⟩⟩
    exact Nat.add_sub_of_le (Nat.le_of_lt hb)

/-- One super-block: the next state, or every chunk sum of the row. -/
private theorem fusedStep_eq {x buf : List F} {v : Nat → F} {n b base : Nat} (hbase : b * 256 = base)
    (hx : n ≤ x.length) (hb : base < n) (hterm : ∀ i, i < 256 → base + i < n →
      productAt ((x.drop base).take (min 256 (n - base))) buf i = .ok (v (base + i))) :
    ∃ s, fusedStep x buf n b (fusedState v n b) = .ok s ∧
      (base + 256 < n → s = fusedState v n (b + 1)) ∧
      (n ≤ base + 256 → s.2 = (List.range ((n + canonChunk - 1) / canonChunk)).map (chunkSum v n)) := by
  have hstate : fusedState v n b = (lanesOf v (List.range' (b / supersPerChunk * canonChunk)
      (b * 256 - b / supersPerChunk * canonChunk)), (List.range (b / supersPerChunk)).map (chunkSum v n)) := rfl
  unfold fusedStep
  dsimp only
  obtain ⟨c, hc⟩ : ∃ c, b / supersPerChunk = c := ⟨_, rfl⟩
  obtain ⟨avail, havail, hcount⟩ := avail_cases hb
  rw [hbase] at hstate ⊢
  rw [havail] at hterm ⊢
  have hstart : c * canonChunk ≤ base := by rw [← hc, ← hbase]; exact chunk_start_le b
  have hspan : List.range' (c * canonChunk) (base - c * canonChunk) ++ List.range' base avail =
      List.range' (c * canonChunk) (base + avail - c * canonChunk) := by
    have happend := @List.range'_append_1 (c * canonChunk) (base - c * canonChunk) avail
    have hmid : c * canonChunk + (base - c * canonChunk) = base := Nat.add_sub_of_le hstart
    have hsize : base - c * canonChunk + avail = base + avail - c * canonChunk := by omega
    rw [hmid, hsize] at happend
    exact happend
  have hlanes : addLanes avail (productAt ((x.drop base).take avail) buf) (fusedState v n b).1 =
      .ok (lanesOf v (List.range' (c * canonChunk) (base + avail - c * canonChunk))) := by
    rw [hstate, hc, addLanes_eq, laneLoop_shift (by unfold canonLanes; omega)
      (fun i hi => hterm i (by omega) (by omega)), hspan]
  have hsums : (fusedState v n b).2 = (List.range c).map (chunkSum v n) := by rw [hstate, hc]
  rw [slice_of_le (Nat.le_add_right _ _) (by omega), ok_bind, Nat.add_sub_cancel_left, hlanes, ok_bind]
  split
  next hclose =>
    have hend : base + avail = min (c * canonChunk + canonChunk) n := by
      unfold canonChunk supersPerChunk at *
      omega
    rw [fixedTree_eq, ok_bind, hsums]
    have hsum : PairTree.tree F32.add F32.zero
        (lanesOf v (List.range' (c * canonChunk) (base + avail - c * canonChunk))) = chunkSum v n c := by
      rw [chunkSum_eq v (by omega), hend]
      rfl
    have hgrown : (List.range c).map (chunkSum v n) ++ [chunkSum v n c] =
        (List.range (c + 1)).map (chunkSum v n) := by
      rw [List.range_succ, List.map_append, List.map_singleton]
    rw [hsum, hgrown]
    refine ⟨_, rfl, fun hmore => ?_, fun hlast => ?_⟩
    · have hnext : (b + 1) / supersPerChunk = c + 1 := by unfold supersPerChunk at *; omega
      have hempty : (b + 1) * 256 - (c + 1) * canonChunk = 0 := by
        unfold canonChunk supersPerChunk at *
        omega
      unfold fusedState
      dsimp only
      rw [hnext, hempty, zeroLanes_eq v, List.range'_zero]
    · have hcount : (n + canonChunk - 1) / canonChunk = c + 1 := by
        unfold canonChunk supersPerChunk at *
        omega
      rw [hcount]
  next hopen =>
    have hmore : base + 256 < n := by omega
    have hfull : avail = 256 := by omega
    have hnext : (b + 1) / supersPerChunk = c := by unfold supersPerChunk at *; omega
    refine ⟨_, rfl, fun _ => ?_, fun hlast => absurd hmore (by omega)⟩
    rw [hsums, hfull]
    unfold fusedState
    dsimp only
    rw [hnext, Nat.add_mul, Nat.one_mul, hbase]

/-- A row of super-blocks that decode to `n` weights. -/
private theorem fusedRow_eq {size : Nat} {decode : Vector UInt8 size → List F}
    (hdecode : ∀ block, (decode block).length = 256) {x : List F} {w : List UInt8} {n : Nat} (hx : n ≤ x.length)
    (hpos : 0 < n) (hn : n ≤ w.length / size * 256) :
    fusedRow decode x w n = canonicalDot x ((blocksOf size w).flatMap decode) n := by
  obtain ⟨out, hout⟩ : ∃ out, (blocksOf size w).flatMap decode = out := ⟨_, rfl⟩
  have hlength : out.length = w.length / size * 256 := by
    have hconst := List.map_congr_left fun block (_ : block ∈ blocksOf size w) => hdecode block
    rw [← hout, List.length_flatMap, hconst, List.map_const', List.sum_replicate_nat, length_blocksOf]
  have hloop : ∀ (blocks : List (Vector UInt8 size)) (b base : Nat), b * 256 = base → base < n →
      out.drop base = blocks.flatMap decode →
      ∃ lanes, fusedLoop decode x n b blocks (fusedState (productOf x out) n b) =
        .ok (lanes, (List.range ((n + canonChunk - 1) / canonChunk)).map (chunkSum (productOf x out) n)) := by
    intro blocks
    induction blocks with
    | nil =>
      intro b base _ hb hrest
      rw [List.flatMap_nil, List.drop_eq_nil_iff] at hrest
      omega
    | cons block blocks ih =>
      intro b base hbase hb hrest
      have hterm : ∀ i, i < 256 → base + i < n →
          productAt ((x.drop base).take (min 256 (n - base))) (decode block) i =
            .ok (productOf x out (base + i)) := by
        intro i hi hin
        have hxi : ((x.drop base).take (min 256 (n - base)))[i]? = x[base + i]? := by
          rw [List.getElem?_take_of_lt (Nat.lt_min.mpr ⟨hi, by omega⟩), List.getElem?_drop]
        have hwi : (decode block)[i]? = out[base + i]? := by
          rw [← List.getElem?_drop, hrest, List.flatMap_cons,
            List.getElem?_append_left (by rw [hdecode]; exact hi)]
        have hxin : base + i < x.length := by omega
        have hwin : base + i < out.length := by omega
        unfold productAt productOf
        rw [index_eq_ok.mpr (hxi.trans (List.getElem?_eq_getElem hxin)), ok_bind,
          index_eq_ok.mpr (hwi.trans (List.getElem?_eq_getElem hwin)), ok_bind,
          eq_getD (List.getElem?_eq_getElem hxin), eq_getD (List.getElem?_eq_getElem hwin)]
        rfl
      obtain ⟨s, hstep, hnext, hlast⟩ := fusedStep_eq hbase hx hb hterm
      unfold fusedLoop
      rw [hbase, if_neg (Nat.not_le.mpr hb), hstep, ok_bind]
      by_cases hmore : base + 256 < n
      · rw [hnext hmore]
        refine ih (b + 1) (base + 256) (by rw [Nat.add_mul, hbase]) hmore ?_
        rw [← List.drop_drop, hrest, List.flatMap_cons, List.drop_left' (hdecode block)]
      · refine ⟨s.1, ?_⟩
        rw [← hlast (Nat.not_lt.mp hmore)]
        -- the row is done, whatever blocks are left
        cases blocks with
        | nil => rfl
        | cons next blocks =>
          have hdone : (b + 1) * 256 ≥ n := by
            rw [Nat.add_mul, hbase]
            exact Nat.not_lt.mp hmore
          unfold fusedLoop
          rw [if_pos hdone]
  have hzero : fusedState (productOf x out) n 0 = (zeroLanes, []) := by
    rw [zeroLanes_eq (productOf x out)]
    rfl
  obtain ⟨lanes, hrun⟩ := hloop (blocksOf size w) 0 0 (Nat.zero_mul 256) hpos (by rw [List.drop_zero, hout])
  rw [hzero] at hrun
  unfold fusedRow
  rw [hrun, ok_bind, fixedTree_eq, hout, canonicalDot_value hx (by omega)]
  rfl

theorem canonicalDotQ4kFused_eq {x : List F} {w : List UInt8} {n : Nat} (hx : n ≤ x.length)
    (hwhole : w.length % 144 = 0) (hn : n ≤ w.length / 144 * 256) :
    canonicalDotQ4kFused x w n = canonicalDot x ((blocksOf 144 w).flatMap q4kWeights) n := by
  unfold canonicalDotQ4kFused
  rw [if_neg (not_not_intro hwhole)]
  split
  next hzero =>
    subst hzero
    rfl
  next hpos => exact fusedRow_eq length_q4kWeights hx (Nat.pos_of_ne_zero hpos) hn

theorem q6kFusedF32Dot_eq {x : List F} {w : List UInt8} {n : Nat} (hx : n ≤ x.length)
    (hwhole : w.length % 210 = 0) (hn : n ≤ w.length / 210 * 256) :
    q6kFusedF32Dot x w n = canonicalDot x ((blocksOf 210 w).flatMap q6kWeights) n := by
  unfold q6kFusedF32Dot
  rw [if_neg (not_not_intro hwhole), if_neg (Nat.not_lt.mpr hn)]
  split
  next hzero =>
    subst hzero
    rfl
  next hpos => exact fusedRow_eq length_q6kWeights hx (Nat.pos_of_ne_zero hpos) hn

/-- **The fused kernels are the plain dot product.** On whole super-blocks that decode to `n`
weights, each kernel, with its buffer, returns the bits of the canonical dot product with the
dequantized row. -/
theorem fused_kernels_eq_dot (x : List F) (w : List UInt8) (n : Nat) (hx : n ≤ x.length) :
    (w.length % 144 = 0 → ∀ out, dequantizeQ4K w = .ok out → n ≤ out.length →
      ∃ v, canonicalDot x out n = .ok v ∧
        canonicalDotQ4kInPlace x w n = .ok v ∧ canonicalDotQ4kFused x w n = .ok v) ∧
    (w.length % 210 = 0 → ∀ out, dequantizeQ6K w = .ok out → n ≤ out.length →
      ∃ v, canonicalDot x out n = .ok v ∧
        q6kFusedF32DotInPlace x w n = .ok v ∧ q6kFusedF32Dot x w n = .ok v) := by
  constructor
  · intro hwhole out hout hn
    obtain ⟨-, -, rfl⟩ := dequantize_eq_ok hout
    rw [length_flatMap_blocksOf length_q4kWeights] at hn
    obtain ⟨v, hv⟩ := canonicalDotQ4kFused_ok hx hwhole
    refine ⟨v, ?_, ?_, hv⟩
    · rw [← canonicalDotQ4kFused_eq hx hwhole hn, hv]
    · rw [canonicalDotQ4kInPlace_eq, hv]
  · intro hwhole out hout hn
    obtain ⟨-, -, rfl⟩ := dequantize_eq_ok hout
    rw [length_flatMap_blocksOf length_q6kWeights] at hn
    obtain ⟨v, hv⟩ := q6kFusedF32Dot_ok hx hwhole hn
    refine ⟨v, ?_, ?_, hv⟩
    · rw [← q6kFusedF32Dot_eq hx hwhole hn, hv]
    · rw [q6kFusedF32DotInPlace_eq, hv]

/-- A ragged row of two super-blocks of either kind. -/
theorem fused_kernels_eq_dot_ragged :
    (∃ out v, @dequantizeQ4K Nat (F32.ofSemiring Nat) (List.replicate 288 7) = .ok out ∧
      @canonicalDot Nat (F32.ofSemiring Nat) (List.replicate 300 1) out 300 = .ok v ∧
      @canonicalDotQ4kFused Nat (F32.ofSemiring Nat) (List.replicate 300 1) (List.replicate 288 7) 300 = .ok v) ∧
    (∃ out v, @dequantizeQ6K Nat (F32.ofSemiring Nat) (List.replicate 420 7) = .ok out ∧
      @canonicalDot Nat (F32.ofSemiring Nat) (List.replicate 300 1) out 300 = .ok v ∧
      @q6kFusedF32Dot Nat (F32.ofSemiring Nat) (List.replicate 300 1) (List.replicate 420 7) 300 = .ok v) := by
  have hx : 300 ≤ (List.replicate 300 1 : List Nat).length := by rw [List.length_replicate]
  obtain ⟨out, hout, hlen⟩ : ∃ out, @dequantizeQ4K Nat (F32.ofSemiring Nat) (List.replicate 288 7) = .ok out ∧
      out.length = (List.replicate 288 (7 : UInt8)).length / 144 * 256 :=
    @dequantize_ok Nat (F32.ofSemiring Nat) _ _ _ _ (@length_q4kWeights Nat (F32.ofSemiring Nat)) _
      (by rw [List.length_replicate]) (by rw [List.length_replicate]; decide)
  obtain ⟨out', hout', hlen'⟩ : ∃ out, @dequantizeQ6K Nat (F32.ofSemiring Nat) (List.replicate 420 7) = .ok out ∧
      out.length = (List.replicate 420 (7 : UInt8)).length / 210 * 256 :=
    @dequantize_ok Nat (F32.ofSemiring Nat) _ _ _ _ (@length_q6kWeights Nat (F32.ofSemiring Nat)) _
      (by rw [List.length_replicate]) (by rw [List.length_replicate]; decide)
  rw [List.length_replicate] at hlen hlen'
  obtain ⟨v, hdot, -, hfused⟩ := (@fused_kernels_eq_dot Nat (F32.ofSemiring Nat)
    (List.replicate 300 1) (List.replicate 288 7) 300 hx).1 (by rw [List.length_replicate]) out hout (by omega)
  obtain ⟨v', hdot', -, hfused'⟩ := (@fused_kernels_eq_dot Nat (F32.ofSemiring Nat)
    (List.replicate 300 1) (List.replicate 420 7) 300 hx).2 (by rw [List.length_replicate]) out' hout' (by omega)
  exact ⟨⟨out, v, hout, hdot, hfused⟩, ⟨out', v', hout', hdot', hfused'⟩⟩

end VitniTensor
