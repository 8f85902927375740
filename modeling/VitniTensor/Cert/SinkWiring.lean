import VitniTensor.Cert.Calls
import VitniTensor.Cert.Lengths

/-!
# The digest of a run of events

The runtime behind a sink never sees the certificate. It collects the events and writes the hashed
stream again with a serializer of its own, that of the wiring test, whose buffers and loops are
written out here. On the calls of a builder it comes to the digest that the builder computes.
-/

namespace VitniTensor.SinkWiring

open Outcome

/-- The five lists that `digest_from_events` gathers. -/
structure Collected where
  inputs : List (String × List UInt8)
  outputs : List (String × List UInt8)
  ops : List OpRecord
  acts : List ActivationRecord
  intvs : List InterventionRecord

def collect (c : Collected) : SinkEvent → Collected
  | .input name bytes => { c with inputs := c.inputs ++ [(name, bytes)] }
  | .output name bytes => { c with outputs := c.outputs ++ [(name, bytes)] }
  | .op record => { c with ops := c.ops ++ [record] }
  | .activation record => { c with acts := c.acts ++ [record] }
  | .intervention record => { c with intvs := c.intvs ++ [record] }
  | .request _ | .finalize => c

/-! ### The serializer -/

/-- Its own `write_leb128`: ten cells are filled and those in front of `i` are hashed. -/
def writeLeb128 (h : Hasher) (v : UInt64) : Res Hasher := do
  let (buf, i) ← fillLeb128 (List.replicate 10 0) 0 v
  let bytes ← slice buf 0 i
  pure (h.update bytes)

/-- The body of the loops over inputs and outputs. -/
def writeNamed (h : Hasher) : String × List UInt8 → Res Hasher
  | (n, b) => do
    let h ← writeLeb128 h (UInt64.ofNat n.asBytes.length)
    let h := h.update n.asBytes
    let h ← writeLeb128 h (UInt64.ofNat b.length)
    pure (h.update b)

def writeOp (h : Hasher) (op : OpRecord) : Res Hasher := do
  let h ← writeLeb128 h op.opIndex.toUInt64
  let name := op.opName.asBytes
  let h ← writeLeb128 h (UInt64.ofNat name.length)
  let h := h.update name
  let h ← writeLeb128 h op.layer.toUInt64
  let h := h.update op.inputHash.toList
  let h := h.update op.paramsHash.toList
  pure (h.update op.outputHash.toList)

def writeAct (h : Hasher) (act : ActivationRecord) : Res Hasher := do
  let h ← writeLeb128 h act.actIndex.toUInt64
  let h ← writeLeb128 h act.tokenIndex.toUInt64
  let h ← writeLeb128 h act.layer.toUInt64
  let name := act.checkpoint.asBytes
  let h ← writeLeb128 h (UInt64.ofNat name.length)
  let h := h.update name
  pure (h.update act.tensorHash.toList)

def writeIntv (h : Hasher) (intv : InterventionRecord) : Res Hasher := do
  let h ← writeLeb128 h intv.intvIndex.toUInt64
  let h ← writeLeb128 h intv.tokenIndex.toUInt64
  let h ← writeLeb128 h intv.layer.toUInt64
  let name := intv.checkpoint.asBytes
  let h ← writeLeb128 h (UInt64.ofNat name.length)
  let h := h.update name
  pure (h.update intv.replacementHash.toList)

def digestFromEvents (blake3 : Blake3) (events : List SinkEvent) : Res Hash := do
  let c := events.foldl collect ⟨[], [], [], [], []⟩
  let h := Hasher.new
  let h := h.update "vitnify-receipt v2\x00".asBytes
  let h ← writeLeb128 h (UInt64.ofNat regime.asBytes.length)
  let h := h.update regime.asBytes
  let h ← writeLeb128 h (UInt64.ofNat c.inputs.length)
  let h ← c.inputs.foldlM writeNamed h
  let h ← writeLeb128 h (UInt64.ofNat c.outputs.length)
  let h ← c.outputs.foldlM writeNamed h
  let h ← writeLeb128 h (UInt64.ofNat c.ops.length)
  let h ← c.ops.foldlM writeOp h
  let h ← writeLeb128 h (UInt64.ofNat c.acts.length)
  let h ← c.acts.foldlM writeAct h
  let h ← writeLeb128 h (UInt64.ofNat c.intvs.length)
  let h ← c.intvs.foldlM writeIntv h
  pure (h.finalize blake3)

/-! ### Its writers are those of the builder -/

/-- The ten cells always hold the word, so nothing panics. -/
theorem writeLeb128_eq (h : Hasher) (v : UInt64) : writeLeb128 h v = .ok (VitniTensor.writeLeb128 h v) := by
  obtain ⟨⟨buf, hfill, hslice⟩, -⟩ := leb128_canonical v
  unfold writeLeb128
  simp only [hfill, ok_bind, hslice]
  rfl

theorem writeNamed_eq (h : Hasher) (f : CertField) : writeNamed h (f.name, f.bytes) = .ok (writeField h f) := by
  unfold writeNamed writeField
  simp only [writeLeb128_eq, ok_bind]
  rfl

theorem writeOp_eq (h : Hasher) (op : OpRecord) : writeOp h op = .ok (VitniTensor.writeOp h op) := by
  unfold writeOp VitniTensor.writeOp
  simp only [writeLeb128_eq, ok_bind]
  rfl

theorem writeAct_eq (h : Hasher) (act : ActivationRecord) : writeAct h act = .ok (writeActivation h act) := by
  unfold writeAct writeActivation
  simp only [writeLeb128_eq, ok_bind]
  rfl

theorem writeIntv_eq (h : Hasher) (intv : InterventionRecord) :
    writeIntv h intv = .ok (writeIntervention h intv) := by
  unfold writeIntv writeIntervention
  simp only [writeLeb128_eq, ok_bind]
  rfl

/-- A loop whose body never stops is the loop of the builder. -/
theorem foldlM_eq {α : Type} {body : Hasher → α → Res Hasher} {write : Hasher → α → Hasher}
    (hbody : ∀ h a, body h a = .ok (write h a)) (h : Hasher) (items : List α) :
    items.foldlM body h = .ok (items.foldl write h) := by
  induction items generalizing h with
  | nil => rfl
  | cons a items ih =>
    rw [List.foldlM_cons, hbody, ok_bind, ih]
    rfl

/-! ### The events of a builder -/

/-- What is gathered from the calls of a builder. -/
def ofSections (c : Sections) : Collected :=
  ⟨c.inputs.map fun f => (f.name, f.bytes), c.outputs.map fun f => (f.name, f.bytes), c.ops, c.activations,
    c.interventions⟩

theorem collect_inputs (fs : List CertField) (c : Collected) :
    (fs.map fun f => SinkEvent.input f.name f.bytes).foldl collect c =
      { c with inputs := c.inputs ++ fs.map fun f => (f.name, f.bytes) } := by
  induction fs generalizing c with
  | nil => simp
  | cons f fs ih => simp [ih, collect]

theorem collect_outputs (fs : List CertField) (c : Collected) :
    (fs.map fun f => SinkEvent.output f.name f.bytes).foldl collect c =
      { c with outputs := c.outputs ++ fs.map fun f => (f.name, f.bytes) } := by
  induction fs generalizing c with
  | nil => simp
  | cons f fs ih => simp [ih, collect]

theorem collect_ops (rs : List OpRecord) (c : Collected) :
    (rs.map SinkEvent.op).foldl collect c = { c with ops := c.ops ++ rs } := by
  induction rs generalizing c with
  | nil => simp
  | cons r rs ih => simp [ih, collect]

theorem collect_activations (rs : List ActivationRecord) (c : Collected) :
    (rs.map SinkEvent.activation).foldl collect c = { c with acts := c.acts ++ rs } := by
  induction rs generalizing c with
  | nil => simp
  | cons r rs ih => simp [ih, collect]

theorem collect_interventions (rs : List InterventionRecord) (c : Collected) :
    (rs.map SinkEvent.intervention).foldl collect c = { c with intvs := c.intvs ++ rs } := by
  induction rs generalizing c with
  | nil => simp
  | cons r rs ih => simp [ih, collect]

theorem collect_calls (b : CertBuilder) (tier : UInt8) :
    (b.calls tier).foldl collect ⟨[], [], [], [], []⟩ = ofSections b.toSections := by
  unfold CertBuilder.calls CertBuilder.declared ofSections
  simp only [List.foldl_append, List.foldl_cons, List.foldl_nil, collect, collect_inputs, collect_outputs,
    collect_ops, collect_activations, collect_interventions, List.nil_append]

/-- The stream written from the calls is the one that the builder hashes. -/
theorem digestFromEvents_calls (blake3 : Blake3) (b : CertBuilder) (tier : UInt8) :
    digestFromEvents blake3 (b.calls tier) = .ok (b.finalize blake3).digest := by
  unfold digestFromEvents
  rw [collect_calls]
  unfold ofSections
  simp only [writeLeb128_eq, ok_bind, List.length_map, List.foldlM_map, foldlM_eq writeNamed_eq,
    foldlM_eq writeOp_eq, foldlM_eq writeAct_eq, foldlM_eq writeIntv_eq]
  rfl

end VitniTensor.SinkWiring
