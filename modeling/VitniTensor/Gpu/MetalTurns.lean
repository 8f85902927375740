import VitniTensor.Gpu.StepComposition
import VitniTensor.Gpu.MetalStep

/-!
# Rotations on the device

A kernel rotates the pairs of each head by the tables that the host computed for the position. These
are the pairs of the engine in the split-half layout, and in the interleaved one exactly if the size
of a head is even: the engine pairs cells across the heads.
-/

namespace VitniTensor

open Outcome Rows

variable {F : Type} [F32 F]

namespace MetalForward

open Metal

theorem u32_of_lt {n : Nat} (h : n < 2 ^ 32) : u32 n = n := by
  unfold u32
  rw [UInt32.toNat_ofNat']
  exact Nat.mod_eq_of_lt h

theorem u32_eq_self {n : Nat} : u32 n = n ↔ n < 2 ^ 32 := by
  constructor
  · intro h
    rw [← h]
    exact (UInt32.ofNat n).toNat_lt
  · exact u32_of_lt

variable {p : Pass F}

/-- What the host hands over for the step of a pass. -/
def givenOf (p : Pass F) : Given F where
  cos := (List.range (p.headSize / 2)).map fun j => (hostAngle p.weights.ropeTheta p.headSize p.pos j).1
  sin := (List.range (p.headSize / 2)).map fun j => (hostAngle p.weights.ropeTheta p.headSize p.pos j).2
  att := p.cfg.nHeads * p.headSize

/-- The pairs of the interleaved layout, head by head. -/
def pairTurns (p : Pass F) (n : Nat) : List (PairTurn F) :=
  (List.range n).flatMap fun h => (List.range (p.headSize / 2)).map fun i =>
    ⟨h * p.headSize + 2 * i, h * p.headSize + 2 * i + 1, (p.angle (2 * i)).1, (p.angle (2 * i)).2⟩

/-- No index of a pair wraps. -/
theorem turnAt_eq {n h i : Nat} (hn : n * p.headSize < 2 ^ 32) (hh : h < n) (hi : i < p.headSize / 2) (neox : Bool) :
    turnAt neox (.ofNat p.headSize) (.ofNat h) (.ofNat i) (p.angle (2 * i)) =
      if neox then p.headTurn h i
      else ⟨h * p.headSize + 2 * i, h * p.headSize + 2 * i + 1, (p.angle (2 * i)).1, (p.angle (2 * i)).2⟩ := by
  have hrow := Nat.mul_le_mul_right p.headSize hh
  rw [Nat.succ_mul] at hrow
  have hsize : p.headSize < 2 ^ 32 := by omega
  have hheads : h * p.headSize < 2 ^ 32 := by omega
  have hwhole : h < 2 ^ 32 := Nat.lt_of_le_of_lt (Nat.le_mul_of_pos_right h (by omega)) hheads
  have hbase : (UInt32.ofNat h * UInt32.ofNat p.headSize).toNat = h * p.headSize := by
    rw [UInt32.toNat_mul, UInt32.toNat_ofNat', UInt32.toNat_ofNat', Nat.mod_eq_of_lt hwhole, Nat.mod_eq_of_lt hsize,
      Nat.mod_eq_of_lt hheads]
  have hentry : (UInt32.ofNat i).toNat = i := by
    rw [UInt32.toNat_ofNat']
    omega
  have hhalf : (UInt32.ofNat p.headSize / 2).toNat = p.headSize / 2 := by
    rw [UInt32.toNat_div, UInt32.toNat_ofNat', Nat.mod_eq_of_lt hsize]
    rfl
  have htwice : (2 * UInt32.ofNat i).toNat = 2 * i := by
    rw [UInt32.toNat_mul, hentry]
    exact Nat.mod_eq_of_lt (by change 2 * i < _; omega)
  unfold turnAt Pass.headTurn
  dsimp only
  split
  · congr 1
    · rw [UInt32.toNat_add, hbase, hentry, Nat.mod_eq_of_lt (by omega)]
    · rw [UInt32.toNat_add, UInt32.toNat_add, hbase, hentry, hhalf, Nat.mod_eq_of_lt (by omega),
        Nat.mod_eq_of_lt (by omega)]
  · congr 1
    · rw [UInt32.toNat_add, hbase, htwice, Nat.mod_eq_of_lt (by omega)]
    · have hone : (1 : UInt32).toNat = 1 := rfl
      rw [UInt32.toNat_add, UInt32.toNat_add, hbase, htwice, hone, Nat.mod_eq_of_lt (by omega),
        Nat.mod_eq_of_lt (by omega)]

/-- What a rotation of `n` heads leaves. -/
theorem rotated_eq {n : Nat} (hn : n < 2 ^ 32) (hcells : n * p.headSize < 2 ^ 32) (hsize : p.headSize < 2 ^ 32)
    (v : Value F) :
    (givenOf p).rotated p.weights.ropeNeox (.ofNat n) (.ofNat p.headSize) v =
      .rotate (if p.weights.ropeNeox then p.headTurns n else pairTurns p n) v := by
  have hcount : (UInt32.ofNat n).toNat = n := u32_of_lt hn
  have hhalf : (UInt32.ofNat p.headSize).toNat = p.headSize := u32_of_lt hsize
  have htables : p.headSize / 2 ≤ min (givenOf p).cos.length (givenOf p).sin.length := by
    unfold givenOf
    rw [List.length_map, List.length_map, List.length_range, Nat.min_self]
  have hentry : ∀ i ∈ List.range (p.headSize / 2),
      ((givenOf p).cos.getD i F32.zero, (givenOf p).sin.getD i F32.zero) = p.angle (2 * i) := by
    intro i hi
    have hlt := List.mem_range.mp hi
    unfold givenOf
    simp only [List.getD_eq_getElem?_getD, List.getElem?_map, List.getElem?_range hlt, Option.map_some,
      Option.getD_some]
    rfl
  unfold Given.rotated
  rw [hcount, hhalf, if_pos htables]
  congr 1
  have hturns : ∀ h ∈ List.range n, ((List.range (p.headSize / 2)).map fun i =>
      turnAt p.weights.ropeNeox (.ofNat p.headSize) (.ofNat h) (.ofNat i)
        ((givenOf p).cos.getD i F32.zero, (givenOf p).sin.getD i F32.zero)) =
      (List.range (p.headSize / 2)).map fun i => if p.weights.ropeNeox then p.headTurn h i
        else ⟨h * p.headSize + 2 * i, h * p.headSize + 2 * i + 1, (p.angle (2 * i)).1, (p.angle (2 * i)).2⟩ := by
    intro h hh
    refine List.map_congr_left fun i hi => ?_
    rw [hentry i hi, turnAt_eq hcells (List.mem_range.mp hh) (List.mem_range.mp hi)]
  rw [List.flatMap_congr hturns]
  unfold Pass.headTurns pairTurns
  split <;> rfl

/-! ### Interleaved pairs -/

/-- In heads of an even size no pair goes across. -/
theorem pairTurns_even (heven : p.headSize % 2 = 0) (n : Nat) :
    pairTurns p n = (List.range (n * (p.headSize / 2))).map p.pairTurn := by
  unfold pairTurns
  rw [map_range_mul]
  refine List.flatMap_congr fun h _ => List.map_congr_left fun i hi => ?_
  have hlt := List.mem_range.mp hi
  have hpair : 2 * (h * (p.headSize / 2) + i) = h * p.headSize + 2 * i := by
    rw [Nat.mul_add, Nat.mul_left_comm, Nat.mul_div_cancel' (Nat.dvd_of_mod_eq_zero heven)]
  have hinner : (h * p.headSize + 2 * i) % p.headSize = 2 * i := by
    rw [Nat.mul_comm h, Nat.mul_add_mod, Nat.mod_eq_of_lt (by omega)]
  unfold Pass.pairTurn
  rw [hpair, hinner]

theorem length_pairTurns (n : Nat) : (pairTurns p n).length = n * (p.headSize / 2) := by
  unfold pairTurns
  rw [List.length_flatMap]
  simp

/-- The query of a step of the interleaved layout: its pairs are the engine's for even heads, and no others. -/
theorem pairTurns_query (hdim : p.cfg.dim = p.cfg.nHeads * p.headSize) (hwhole : p.cfg.dim % 2 = 0)
    (hheads : 0 < p.cfg.nHeads) :
    pairTurns p p.cfg.nHeads = (List.range ((p.cfg.dim + 1) / 2)).map p.pairTurn ↔ p.headSize % 2 = 0 := by
  constructor
  · intro hsame
    have hlength := congrArg List.length hsame
    rw [length_pairTurns, List.length_map, List.length_range] at hlength
    -- an odd cell of each head stays behind on the device
    by_contra hodd
    have hsplit : p.headSize = 2 * (p.headSize / 2) + 1 := by omega
    have hcells : p.cfg.dim = 2 * (p.cfg.nHeads * (p.headSize / 2)) + p.cfg.nHeads := by
      rw [hdim]
      nth_rewrite 1 [hsplit]
      rw [Nat.mul_add, Nat.mul_left_comm, Nat.mul_one]
    omega
  · intro heven
    have hcells : p.cfg.dim = 2 * (p.cfg.nHeads * (p.headSize / 2)) := by
      rw [hdim, Nat.mul_left_comm, Nat.mul_div_cancel' (Nat.dvd_of_mod_eq_zero heven)]
    rw [pairTurns_even heven]
    congr 2
    omega

omit [F32 F] in
/-- The pairs that begin in `m` cells. -/
theorem filter_pairs {n m : Nat} (h : m ≤ n) : (List.range n).filter (2 * · < 2 * m) = List.range m := by
  obtain ⟨rest, rfl⟩ := Nat.exists_eq_add_of_le h
  rw [List.range_add, List.filter_append, List.filter_eq_self.mpr (by simp),
    List.filter_eq_nil_iff.mpr (by simp), List.append_nil]

/-- The key of a step of the interleaved layout, for even heads. -/
theorem pairTurns_key (hp : p.Derived) (hdim : p.cfg.dim = p.cfg.nHeads * p.headSize) (hgroups : 0 < p.kvMul)
    (heven : p.headSize % 2 = 0) :
    pairTurns p p.cfg.nKvHeads =
      ((List.range ((p.cfg.dim + 1) / 2)).filter (2 * · < p.kvDim)).map p.pairTurn := by
  have hhalf : ∀ n, n * p.headSize = 2 * (n * (p.headSize / 2)) := fun n => by
    rw [Nat.mul_left_comm, Nat.mul_div_cancel' (Nat.dvd_of_mod_eq_zero heven)]
  have hle : p.cfg.nKvHeads ≤ p.cfg.nHeads := by
    rw [hp.kvMul] at hgroups
    exact (Nat.div_pos_iff.mp hgroups).2
  have hpairs : (p.cfg.dim + 1) / 2 = p.cfg.nHeads * (p.headSize / 2) := by
    rw [hdim, hhalf]
    omega
  rw [pairTurns_even heven, hpairs, hp.kvDim_eq hdim, hhalf, filter_pairs (Nat.mul_le_mul_right _ hle)]

end MetalForward

end VitniTensor
