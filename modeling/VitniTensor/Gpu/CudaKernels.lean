import VitniTensor.Gpu.Lanes
import VitniTensor.Quant.Blocks

/-!
# Helpers of the CUDA kernels

What the kernels read of a block and sum over a row. A pointer is a function from offsets to cells, and
`float` arithmetic is uninterpreted. Integer sums stay far below 2^31 and are sums of integers.
-/

open F32

namespace VitniTensor.Cuda.Device

variable {F : Type} [F32 F]

/-- Two bytes of a block. -/
def f16At (blk : Nat → UInt8) (i : Nat) : F :=
  f16Le (blk i) (blk (i + 1))

def getScaleMinK4 (j : Nat) (sc : Nat → UInt8) : UInt8 × UInt8 :=
  if j < 4 then (sc j &&& (0x3F : UInt8), sc (j + 4) &&& (0x3F : UInt8))
  else ((sc (j + 4) &&& (0x0F : UInt8)) ||| ((sc (j - 4) >>> 6) <<< 4), (sc (j + 4) >>> 4) ||| ((sc j >>> 6) <<< 4))

/-- `__dp4a`, with the four bytes of its operands. -/
def dp4a (a b : Nat → Int) (c : Int) : Int :=
  c + (a 0 * b 0 + a 1 * b 1 + a 2 * b 2 + a 3 * b 3)

/-- The 6-bit weight `l` of a quarter of a half block: four bits of `ql` below two of `qh`, less 32. -/
def q6kWeight (blk : Nat → UInt8) (hb quarter l : Nat) : Int :=
  let b0 := blk (hb * 64 + l)
  let b1 := blk (hb * 64 + l + 32)
  let h := blk (128 + (hb * 32 + l))
  let v : UInt8 := match quarter with
    | 0 => (b0 &&& (0x0F : UInt8)) ||| ((h &&& (0x03 : UInt8)) <<< 4)
    | 1 => (b1 &&& (0x0F : UInt8)) ||| (((h >>> 2) &&& (0x03 : UInt8)) <<< 4)
    | 2 => (b0 >>> 4) ||| (((h >>> 4) &&& (0x03 : UInt8)) <<< 4)
    | _ => (b1 >>> 4) ||| (((h >>> 6) &&& (0x03 : UInt8)) <<< 4)
  (v.toNat : Int) - 32

/-- The sum of squares of `k_rms`. -/
def rmsSumsq (row : Nat → F) (feat : UInt32) : F :=
  Device.fixedTree (Device.laneSums feat.toNat fun i => mul (row i) (row i)) 8

end VitniTensor.Cuda.Device
