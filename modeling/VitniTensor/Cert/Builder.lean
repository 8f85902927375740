import VitniTensor.Lib.Codec
import VitniTensor.Lib.Text
import Mathlib.Tactic.Ring

/-!
# Receipts

The records of an execution certificate, the builder that collects them and the byte
stream that its binding digest hashes. BLAKE3 is a parameter: a function from byte
strings to 32-byte hashes.
-/

namespace VitniTensor

abbrev Hash := Vector UInt8 32

abbrev Blake3 := List UInt8 → Hash

/-- A named input or output of the bound computation. -/
structure CertField where
  name : String
  bytes : List UInt8
  deriving DecidableEq, Repr

structure OpRecord where
  opIndex : UInt32
  opName : String
  layer : UInt32
  inputHash : Hash
  paramsHash : Hash
  outputHash : Hash
  deriving DecidableEq, Repr

structure ActivationRecord where
  actIndex : UInt32
  tokenIndex : UInt32
  layer : UInt32
  checkpoint : String
  tensorHash : Hash
  deriving DecidableEq, Repr

structure InterventionRecord where
  intvIndex : UInt32
  tokenIndex : UInt32
  layer : UInt32
  checkpoint : String
  replacementHash : Hash
  deriving DecidableEq, Repr

/-- The five lists that a digest binds. -/
structure Sections where
  inputs : List CertField
  outputs : List CertField
  ops : List OpRecord
  activations : List ActivationRecord
  interventions : List InterventionRecord
  deriving DecidableEq, Repr

structure Cert extends Sections where
  digest : Hash
  deriving DecidableEq, Repr

/-! ### The hashed stream -/

/-- The state of `blake3::Hasher`: the bytes fed to it so far. -/
structure Hasher where
  stream : List UInt8
  deriving DecidableEq, Repr

namespace Hasher

def new : Hasher := ⟨[]⟩

def update (h : Hasher) (bytes : List UInt8) : Hasher :=
  ⟨h.stream ++ bytes⟩

def finalize (blake3 : Blake3) (h : Hasher) : Hash :=
  blake3 h.stream

@[simp] theorem stream_new : new.stream = [] := rfl

@[simp] theorem stream_update (h : Hasher) (bytes : List UInt8) :
    (h.update bytes).stream = h.stream ++ bytes := rfl

end Hasher

theorem low7_toNat (v : UInt64) : (v &&& 0x7f).toUInt8.toNat = v.toNat % 128 := by
  have mask : (0x7f : UInt64).toNat = 2 ^ 7 - 1 := rfl
  rw [UInt64.toNat_toUInt8, UInt64.toNat_and, mask, Nat.and_two_pow_sub_one_eq_mod]
  omega

theorem high_toNat (v : UInt64) : (v >>> 7).toNat = v.toNat / 128 := by
  have amount : (7 : UInt64).toNat % 64 = 7 := rfl
  rw [UInt64.toNat_shiftRight, amount, Nat.shiftRight_eq_div_pow]

theorem continued_toNat (b : UInt8) (h : b.toNat < 128) : (b ||| 0x80).toNat = b.toNat + 128 := by
  have bit : (0x80 : UInt8).toNat = 2 ^ 7 * 1 := rfl
  rw [UInt8.toNat_or, bit, Nat.or_comm, ← Nat.two_pow_add_eq_or_of_lt h]
  omega

theorem high_ne_zero {v : UInt64} : v >>> 7 ≠ 0 ↔ 128 ≤ v.toNat := by
  rw [ne_eq, ← UInt64.toNat_inj, high_toNat, UInt64.toNat_zero]
  omega

/-- The loop of `write_leb128`, with `cells` cells of its buffer still unwritten. The two
proofs are its bounds check: while the loop runs, a cell is left for `buf[i] = byte`. -/
def leb128Loop : (cells : Nat) → (v : UInt64) → 0 < cells → v.toNat < 128 ^ cells → List UInt8
  | cells + 1, v, _, fits =>
    let byte := (v &&& 0x7f).toUInt8
    let rest := v >>> 7
    if more : rest ≠ 0 then
      have large := high_ne_zero.mp more
      have left : 0 < cells := by
        cases cells with
        | zero => simp only [Nat.zero_add, Nat.pow_one] at fits; omega
        | succ n => exact Nat.succ_pos n
      have fits' : rest.toNat < 128 ^ cells := by
        rw [high_toNat]
        exact Nat.div_lt_of_lt_mul (by rwa [Nat.mul_comm, ← Nat.pow_succ])
      (byte ||| 0x80) :: leb128Loop cells rest left fits'
    else [byte]

/-- Unsigned LEB128 of `v`, as `write_leb128` leaves it in `buf[..i]`. -/
def leb128 (v : UInt64) : List UInt8 :=
  leb128Loop 10 v (by decide) (Nat.lt_of_lt_of_le v.toNat_lt (by decide))

def writeLeb128 (h : Hasher) (v : UInt64) : Hasher :=
  h.update (leb128 v)

def writeField (h : Hasher) (f : CertField) : Hasher :=
  let name := f.name.asBytes
  let h := writeLeb128 h (UInt64.ofNat name.length)
  let h := h.update name
  let h := writeLeb128 h (UInt64.ofNat f.bytes.length)
  h.update f.bytes

def writeOp (h : Hasher) (op : OpRecord) : Hasher :=
  let h := writeLeb128 h op.opIndex.toUInt64
  let name := op.opName.asBytes
  let h := writeLeb128 h (UInt64.ofNat name.length)
  let h := h.update name
  let h := writeLeb128 h op.layer.toUInt64
  let h := h.update op.inputHash.toList
  let h := h.update op.paramsHash.toList
  h.update op.outputHash.toList

def writeActivation (h : Hasher) (act : ActivationRecord) : Hasher :=
  let h := writeLeb128 h act.actIndex.toUInt64
  let h := writeLeb128 h act.tokenIndex.toUInt64
  let h := writeLeb128 h act.layer.toUInt64
  let name := act.checkpoint.asBytes
  let h := writeLeb128 h (UInt64.ofNat name.length)
  let h := h.update name
  h.update act.tensorHash.toList

def writeIntervention (h : Hasher) (intv : InterventionRecord) : Hasher :=
  let h := writeLeb128 h intv.intvIndex.toUInt64
  let h := writeLeb128 h intv.tokenIndex.toUInt64
  let h := writeLeb128 h intv.layer.toUInt64
  let name := intv.checkpoint.asBytes
  let h := writeLeb128 h (UInt64.ofNat name.length)
  let h := h.update name
  h.update intv.replacementHash.toList

/-- One section: its length, then its items in order. -/
def writeItems {α : Type} (write : Hasher → α → Hasher) (h : Hasher) (items : List α) : Hasher :=
  items.foldl write (writeLeb128 h (UInt64.ofNat items.length))

def writeSections (h : Hasher) (c : Sections) : Hasher :=
  let h := writeItems writeField h c.inputs
  let h := writeItems writeField h c.outputs
  let h := writeItems writeOp h c.ops
  let h := writeItems writeActivation h c.activations
  writeItems writeIntervention h c.interventions

/-- The numerical regime that a `v2` digest binds. -/
def regime : String := "vitni-regime-2"

def domainV1 : List UInt8 := "vitnify-receipt v1\x00".asBytes

def domainV2 : List UInt8 := "vitnify-receipt v2\x00".asBytes

/-- The bytes that `compute_digest` feeds to BLAKE3. -/
def preV2 (c : Sections) : List UInt8 :=
  let h := Hasher.new.update domainV2
  let h := writeLeb128 h (UInt64.ofNat regime.asBytes.length)
  let h := h.update regime.asBytes
  (writeSections h c).stream

/-- The bytes that `compute_digest_v1` feeds to BLAKE3. -/
def preV1 (c : Sections) : List UInt8 :=
  (writeSections (Hasher.new.update domainV1) c).stream

def computeDigest (blake3 : Blake3) (c : Sections) : Hash :=
  blake3 (preV2 c)

def computeDigestV1 (blake3 : Blake3) (c : Sections) : Hash :=
  blake3 (preV1 c)

/-! ### The builder -/

structure CertBuilder extends Sections where
  nextOpIndex : UInt32
  nextActIndex : UInt32
  nextIntvIndex : UInt32
  sealed : Bool
  deriving DecidableEq, Repr

namespace CertBuilder

def new : CertBuilder :=
  { inputs := [], outputs := [], ops := [], activations := [], interventions := [],
    nextOpIndex := 0, nextActIndex := 0, nextIntvIndex := 0, sealed := false }

def declareInput (b : CertBuilder) (name : String) (bytes : List UInt8) : CertBuilder :=
  { b with inputs := b.inputs ++ [⟨name, bytes⟩] }

def declareOutput (b : CertBuilder) (name : String) (bytes : List UInt8) : CertBuilder :=
  { b with sealed := true, outputs := b.outputs ++ [⟨name, bytes⟩] }

def declareOp (b : CertBuilder) (opName : String) (layer : UInt32)
    (inputHash paramsHash outputHash : Hash) : CertBuilder :=
  { b with
    nextOpIndex := b.nextOpIndex + 1
    ops := b.ops ++ [⟨b.nextOpIndex, opName, layer, inputHash, paramsHash, outputHash⟩] }

def declareActivation (b : CertBuilder) (tokenIndex layer : UInt32) (checkpoint : String)
    (tensorHash : Hash) : CertBuilder :=
  { b with
    nextActIndex := b.nextActIndex + 1
    activations := b.activations ++ [⟨b.nextActIndex, tokenIndex, layer, checkpoint, tensorHash⟩] }

def declareIntervention (b : CertBuilder) (tokenIndex layer : UInt32) (checkpoint : String)
    (replacementHash : Hash) : CertBuilder :=
  { b with
    nextIntvIndex := b.nextIntvIndex + 1
    interventions :=
      b.interventions ++ [⟨b.nextIntvIndex, tokenIndex, layer, checkpoint, replacementHash⟩] }

def finalize (blake3 : Blake3) (b : CertBuilder) : Cert :=
  { b.toSections with digest := computeDigest blake3 b.toSections }

end CertBuilder

end VitniTensor
