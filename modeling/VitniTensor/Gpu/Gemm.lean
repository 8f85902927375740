import VitniTensor.Gpu.CudaKernels
import VitniTensor.Lib.Scatter
import VitniTensor.Quant.Exact
import VitniTensor.Quant.Linear

/-!
# The tiled GEMMs of the prefill

A block of 256 threads computes a tile of 64 rows by 64 tokens. For each super-block the threads stage
the tile's weights and activations in shared arrays; past the barrier each adds the products of its own
patch of 4 by 4. The pointers are functions from offsets; the offset of a super-block in a row is an
`unsigned` product, and the other offsets are of type `size_t`.
-/

open F32

namespace VitniTensor

open Outcome Loop Scatter

/-- The super-blocks one after another: the block stages, and past the barrier every thread takes its
turn on its own registers. -/
def tileLoop {σ ρ : Type} (ns : Nat) (stage : Nat → σ → σ) (turn : Nat → σ → Nat → ρ → ρ) (shared : σ)
    (regs : Nat → ρ) : σ × (Nat → ρ) :=
  loop ns (fun s st =>
    let shared := stage s st.1
    (shared, fun tid => turn s shared tid (st.2 tid))) (shared, regs)

/-- What a thread holds depends on the staged arrays, and not on what was there before. -/
theorem tileLoop_thread {σ ρ τ : Type} {ns : Nat} {stage : Nat → σ → σ} {turn : Nat → σ → Nat → ρ → ρ} {shared : σ}
    {regs : Nat → ρ} {tid : Nat} (read : ρ → τ) (step : Nat → τ → τ)
    (hturn : ∀ s < ns, ∀ shared r, read (turn s (stage s shared) tid r) = step s (read r)) :
    read ((tileLoop ns stage turn shared regs).2 tid) = loop ns step (read (regs tid)) :=
  @loop_related (σ × (Nat → ρ)) τ ns _ step (shared, regs) (read (regs tid)) (fun st t => read (st.2 tid) = t) rfl
    fun s hs st t hst => by
      dsimp only
      rw [hturn s hs, hst]

open Cuda.Device

namespace Cuda

variable {F : Type} [F32 F]

/-- The arguments of the kernels, which have the same names in both. -/
structure GemmArgs (F : Type) where
  w : Nat → UInt8
  dx : Nat → F
  xq : Nat → Int8
  bsums : Nat → Int
  out : Nat → F
  M : UInt32
  N : UInt32
  ns : UInt32
  acc : Bool
  /-- The callers pass `in_dim / 256u`. -/
  ns_lt : ns.toNat < 2 ^ 24

namespace GemmArgs

variable (g : GemmArgs F)

/-- `w + (size_t)wr * ns * size + s * size`. -/
def blk (size wr s : Nat) : Nat → UInt8 :=
  fun i => g.w (wr * g.ns.toNat * size + s * size % 2 ^ 32 + i)

/-- The stores of the threads of a block past its loop, from what they hold in `outr`. -/
def tileStores (bx by' : Nat) (outr : Nat → Nat → Nat → F) : List (Nat × F) :=
  (List.range 256).flatMap fun tid =>
    (List.range 4).flatMap fun a =>
      (List.range 4).flatMap fun b =>
        let wr := bx * 64 + (tid / 16 * 4 + a)
        let tc := by' * 64 + (tid % 16 * 4 + b)
        let o := tc * g.M.toNat + wr
        if wr < g.M.toNat ∧ tc < g.N.toNat then [(o, if g.acc then add (g.out o) (outr tid a b) else outr tid a b)]
        else []

/-- The grid of `pg`: a block for every tile. No thread reads an output that another one stores. -/
def launch (outr : Nat → Nat → Nat → Nat → Nat → F) : Nat → F :=
  scatter g.out <| (List.range ((g.M.toNat + 63) / 64)).flatMap fun bx =>
    (List.range ((g.N.toNat + 63) / 64)).flatMap fun by' => g.tileStores bx by' (outr bx by')

end GemmArgs

/-! ### Q4_K -/

/-- The shared arrays of `k_q4k_rs_gemm`. -/
structure Q4kTile (F : Type) where
  wsh : Nat × Nat → Int8
  xsh : Nat × Nat → Int8
  scsh : Nat × Nat → UInt8
  msh : Nat × Nat → UInt8
  dxsh : Nat → F
  bsh : Nat × Nat → Int

/-- The registers of a thread. -/
structure Q4kRegs (F : Type) where
  outr : Nat → Nat → F
  drow : Nat → F
  dmrow : Nat → F

/-- The staging of super-block `s`. -/
def q4kStage (g : GemmArgs F) (bx by' s : Nat) (t : Q4kTile F) : Q4kTile F :=
  { wsh := scatter t.wsh <| stagedStores 256 (64 * 256) fun i =>
      let r := i / 256
      let e := i % 256
      let wr := bx * 64 + r
      [((r, e), if wr ≥ g.M.toNat then 0
        else
          let qs := fun j => g.blk 144 wr s (16 + j)
          let half := e / 64
          let within := e % 64
          let l := within % 32
          let q := qs (half * 32 + l)
          if within < 32 then (q &&& 0x0F).toInt8 else (q >>> 4).toInt8)]
    xsh := scatter t.xsh <| stagedStores 256 (64 * 256) fun i =>
      let c := i / 256
      let e := i % 256
      let tc := by' * 64 + c
      [((c, e), if tc < g.N.toNat then g.xq ((tc * g.ns.toNat + s) * 256 + e) else 0)]
    scsh := scatter t.scsh <| stagedStores 256 (64 * 8) fun i =>
      let r := i / 8
      let sub' := i % 8
      let wr := bx * 64 + r
      [((r, sub'), if wr ≥ g.M.toNat then 0 else (Device.getScaleMinK4 sub' fun j => g.blk 144 wr s (4 + j)).1)]
    msh := scatter t.msh <| stagedStores 256 (64 * 8) fun i =>
      let r := i / 8
      let sub' := i % 8
      let wr := bx * 64 + r
      [((r, sub'), if wr ≥ g.M.toNat then 0 else (Device.getScaleMinK4 sub' fun j => g.blk 144 wr s (4 + j)).2)]
    dxsh := scatter t.dxsh <| stagedStores 256 64 fun i =>
      let tc := by' * 64 + i
      [(i, if tc < g.N.toNat then g.dx (tc * g.ns.toNat + s) else zero)]
    bsh := scatter t.bsh <| stagedStores 256 64 fun i =>
      let tc := by' * 64 + i
      (List.range 8).map fun k =>
        ((i, k), if tc < g.N.toNat then g.bsums ((tc * g.ns.toNat + s) * 8 + k) else 0) }

/-- What the integer loops of one patch cell compute from row `r` and token `c` of the tile. -/
def q4kTileSums (t : Q4kTile F) (r c : Nat) : Int × Int :=
  loop 4 (fun half accs =>
    let base := half * 64
    let slo := loop 8 (fun k => dp4a (fun i => (t.wsh (r, base + (4 * k + i))).toInt)
      (fun i => (t.xsh (c, base + (4 * k + i))).toInt)) 0
    let shi := loop 8 (fun k => dp4a (fun i => (t.wsh (r, base + 32 + (4 * k + i))).toInt)
      (fun i => (t.xsh (c, base + 32 + (4 * k + i))).toInt)) 0
    (accs.1 + (((t.scsh (r, half * 2)).toNat : Int) * slo + ((t.scsh (r, half * 2 + 1)).toNat : Int) * shi),
      accs.2 + (((t.msh (r, half * 2)).toNat : Int) * t.bsh (c, half * 2) +
        ((t.msh (r, half * 2 + 1)).toNat : Int) * t.bsh (c, half * 2 + 1)))) (0, 0)

/-- A thread on super-block `s`: its rows' scales, and the 16 cells of its patch. -/
def q4kTurn (g : GemmArgs F) (bx s : Nat) (t : Q4kTile F) (tid : Nat) (regs : Q4kRegs F) : Q4kRegs F :=
  let trow := tid / 16
  let tcol := tid % 16
  let drow := fun a =>
    let wr := bx * 64 + (trow * 4 + a)
    if wr < g.M.toNat then f16At (g.blk 144 wr s) 0 else regs.drow a
  let dmrow := fun a =>
    let wr := bx * 64 + (trow * 4 + a)
    if wr < g.M.toNat then f16At (g.blk 144 wr s) 2 else regs.dmrow a
  { drow := drow
    dmrow := dmrow
    outr := fun a b =>
      let r := trow * 4 + a
      let c := tcol * 4 + b
      let accs := q4kTileSums t r c
      let a1 := mul (drow a) (t.dxsh c)
      let a2 := mul (dmrow a) (t.dxsh c)
      add (regs.outr a b) (sub (mul a1 (ofInt accs.1)) (mul a2 (ofInt accs.2))) }

/-- `k_q4k_rs_gemm`, from any contents of the shared arrays and of the registers that it does not set. -/
def kQ4kRsGemm (g : GemmArgs F) (shared : Nat → Nat → Q4kTile F) (undef : Nat → F) : Nat → F :=
  g.launch fun bx by' tid =>
    ((tileLoop g.ns.toNat (q4kStage g bx by') (q4kTurn g bx) (shared bx by')
      fun _ => ⟨fun _ _ => zero, undef, undef⟩).2 tid).outr

/-! ### Q6_K -/

/-- The shared arrays of `k_q6k_rs_gemm`. -/
structure Q6kTile (F : Type) where
  wsh : Nat × Nat → Int8
  xsh : Nat × Nat → Int8
  scsh : Nat × Nat → Int8
  dwsh : Nat → F
  dxsh : Nat → F

def q6kStage (g : GemmArgs F) (bx by' s : Nat) (t : Q6kTile F) : Q6kTile F :=
  { wsh := scatter t.wsh <| stagedStores 256 (64 * 256) fun i =>
      let r := i / 256
      let e := i % 256
      let wr := bx * 64 + r
      [((r, e), if wr ≥ g.M.toNat then 0
        else
          let hb := e / 128
          let rem := e % 128
          Int8.ofInt (q6kWeight (g.blk 210 wr s) hb (rem / 32) (rem % 32)))]
    xsh := scatter t.xsh <| stagedStores 256 (64 * 256) fun i =>
      let c := i / 256
      let e := i % 256
      let tc := by' * 64 + c
      [((c, e), if tc < g.N.toNat then g.xq ((tc * g.ns.toNat + s) * 256 + e) else 0)]
    scsh := scatter t.scsh <| stagedStores 256 (64 * 16) fun i =>
      let r := i / 16
      let j := i % 16
      let wr := bx * 64 + r
      [((r, j), if wr < g.M.toNat then (g.blk 210 wr s (192 + j)).toInt8 else 0)]
    dwsh := scatter t.dwsh <| stagedStores 256 64 fun i =>
      let wr := bx * 64 + i
      [(i, if wr < g.M.toNat then f16At (g.blk 210 wr s) 208 else zero)]
    dxsh := scatter t.dxsh <| stagedStores 256 64 fun i =>
      let tc := by' * 64 + i
      [(i, if tc < g.N.toNat then g.dx (tc * g.ns.toNat + s) else zero)] }

def q6kTileSum (t : Q6kTile F) (r c : Nat) : Int :=
  loop 16 (fun j acc =>
    let base := j * 16
    let sj := loop 4 (fun k => dp4a (fun i => (t.wsh (r, base + (4 * k + i))).toInt)
      (fun i => (t.xsh (c, base + (4 * k + i))).toInt)) 0
    acc + (t.scsh (r, j)).toInt * sj) 0

/-- The 16 cells of a thread's patch. -/
def q6kTurn (t : Q6kTile F) (tid : Nat) (outr : Nat → Nat → F) : Nat → Nat → F :=
  fun a b =>
    let r := tid / 16 * 4 + a
    let c := tid % 16 * 4 + b
    add (outr a b) (mul (mul (t.dwsh r) (t.dxsh c)) (ofInt (q6kTileSum t r c)))

/-- `k_q6k_rs_gemm`. -/
def kQ6kRsGemm (g : GemmArgs F) (shared : Nat → Nat → Q6kTile F) : Nat → F :=
  g.launch fun bx by' tid =>
    (tileLoop g.ns.toNat (q6kStage g bx by') (fun _ => q6kTurn) (shared bx by') fun _ _ _ => zero).2 tid

end Cuda

end VitniTensor
