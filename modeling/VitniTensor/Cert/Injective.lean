import VitniTensor.Cert.Lengths

/-!
# The receipt format is injective

Every writer appends a readable code to the stream. Lengths are LEB128, whose last byte is
the only one below 128; names, byte blobs and lists are announced by their lengths; hashes
have a fixed width. Unique readability then passes through the records, the sections and
the two domains.
-/

namespace VitniTensor

open Codec

/-! ### Lengths -/

/-- A length as the digest writes it: `write_leb128(h, n as u64)`. -/
def lengthCode (n : Nat) : List UInt8 :=
  leb128 (UInt64.ofNat n)

theorem lengthCode_readable : ReadableOn (· < 2 ^ 64) lengthCode := by
  intro n m s t hn hm eq
  obtain ⟨same, rest⟩ := leb128_readable _ _ s t trivial trivial eq
  have value := congrArg UInt64.toNat same
  rw [UInt64.toNat_ofNat_of_lt' hn, UInt64.toNat_ofNat_of_lt' hm] at value
  exact ⟨value, rest⟩

/-- A 32-bit index or layer, widened and written as LEB128. -/
def indexCode (v : UInt32) : List UInt8 :=
  leb128 v.toUInt64

theorem indexCode_readable : ReadableOn (fun _ => True) indexCode := by
  intro v w s t _ _ eq
  obtain ⟨same, rest⟩ := leb128_readable _ _ s t trivial trivial eq
  refine ⟨?_, rest⟩
  have value := congrArg UInt64.toNat same
  exact UInt32.toNat_inj.mp (by simpa using value)

def nameCode (name : String) : List UInt8 :=
  blob lengthCode name.asBytes

theorem nameCode_readable :
    ReadableOn (fun name => name.asBytes.length < 2 ^ 64) nameCode :=
  lengthCode_readable.blob.comap String.asBytes_injective

theorem hash_readable : ReadableOn (fun _ : Hash => True) Vector.toList := by
  refine readableOn_of_length 32 (fun hash _ => hash.length_toList) ?_
  intro a b _ _ eq
  exact Vector.toList_inj.mp eq

/-! ### Records -/

def fieldCode (f : CertField) : List UInt8 :=
  nameCode f.name ++ blob lengthCode f.bytes

def opCode (op : OpRecord) : List UInt8 :=
  indexCode op.opIndex ++ (nameCode op.opName ++ (indexCode op.layer ++
    (op.inputHash.toList ++ (op.paramsHash.toList ++ op.outputHash.toList))))

def activationCode (act : ActivationRecord) : List UInt8 :=
  indexCode act.actIndex ++ (indexCode act.tokenIndex ++ (indexCode act.layer ++
    (nameCode act.checkpoint ++ act.tensorHash.toList)))

def interventionCode (intv : InterventionRecord) : List UInt8 :=
  indexCode intv.intvIndex ++ (indexCode intv.tokenIndex ++ (indexCode intv.layer ++
    (nameCode intv.checkpoint ++ intv.replacementHash.toList)))

/-- Names and byte blobs have lengths that a `u64` can hold. -/
def CertField.Fits (f : CertField) : Prop :=
  f.name.asBytes.length < 2 ^ 64 ∧ f.bytes.length < 2 ^ 64

def OpRecord.Fits (op : OpRecord) : Prop :=
  op.opName.asBytes.length < 2 ^ 64

def ActivationRecord.Fits (act : ActivationRecord) : Prop :=
  act.checkpoint.asBytes.length < 2 ^ 64

def InterventionRecord.Fits (intv : InterventionRecord) : Prop :=
  intv.checkpoint.asBytes.length < 2 ^ 64

theorem fieldCode_readable : ReadableOn CertField.Fits fieldCode := by
  have parts := nameCode_readable.pair lengthCode_readable.blob
  have view : Function.Injective fun f : CertField => (f.name, f.bytes) := by
    intro f g eq
    cases f
    cases g
    simpa using eq
  exact (parts.comap view).mono fun _ fits => fits

theorem opCode_readable : ReadableOn OpRecord.Fits opCode := by
  have parts := indexCode_readable.pair (nameCode_readable.pair (indexCode_readable.pair
    (hash_readable.pair (hash_readable.pair hash_readable))))
  have view : Function.Injective fun op : OpRecord =>
      (op.opIndex, op.opName, op.layer, op.inputHash, op.paramsHash, op.outputHash) := by
    intro a b eq
    cases a
    cases b
    simpa using eq
  exact (parts.comap view).mono fun _ fits =>
    ⟨trivial, fits, trivial, trivial, trivial, trivial⟩

theorem activationCode_readable : ReadableOn ActivationRecord.Fits activationCode := by
  have parts := indexCode_readable.pair (indexCode_readable.pair (indexCode_readable.pair
    (nameCode_readable.pair hash_readable)))
  have view : Function.Injective fun act : ActivationRecord =>
      (act.actIndex, act.tokenIndex, act.layer, act.checkpoint, act.tensorHash) := by
    intro a b eq
    cases a
    cases b
    simpa using eq
  exact (parts.comap view).mono fun _ fits => ⟨trivial, trivial, trivial, fits, trivial⟩

theorem interventionCode_readable : ReadableOn InterventionRecord.Fits interventionCode := by
  have parts := indexCode_readable.pair (indexCode_readable.pair (indexCode_readable.pair
    (nameCode_readable.pair hash_readable)))
  have view : Function.Injective fun intv : InterventionRecord =>
      (intv.intvIndex, intv.tokenIndex, intv.layer, intv.checkpoint, intv.replacementHash) := by
    intro a b eq
    cases a
    cases b
    simpa using eq
  exact (parts.comap view).mono fun _ fits => ⟨trivial, trivial, trivial, fits, trivial⟩

/-! ### What the writers append -/

@[simp] theorem stream_writeLeb128 (h : Hasher) (v : UInt64) :
    (writeLeb128 h v).stream = h.stream ++ leb128 v := rfl

@[simp] theorem stream_writeField (h : Hasher) (f : CertField) :
    (writeField h f).stream = h.stream ++ fieldCode f := by
  simp [writeField, fieldCode, nameCode, blob, lengthCode]

@[simp] theorem stream_writeOp (h : Hasher) (op : OpRecord) :
    (writeOp h op).stream = h.stream ++ opCode op := by
  simp [writeOp, opCode, nameCode, blob, lengthCode, indexCode]

@[simp] theorem stream_writeActivation (h : Hasher) (act : ActivationRecord) :
    (writeActivation h act).stream = h.stream ++ activationCode act := by
  simp [writeActivation, activationCode, nameCode, blob, lengthCode, indexCode]

@[simp] theorem stream_writeIntervention (h : Hasher) (intv : InterventionRecord) :
    (writeIntervention h intv).stream = h.stream ++ interventionCode intv := by
  simp [writeIntervention, interventionCode, nameCode, blob, lengthCode, indexCode]

theorem stream_writeItems {α : Type} {write : Hasher → α → Hasher} {code : α → List UInt8}
    (appends : ∀ h x, (write h x).stream = h.stream ++ code x) (h : Hasher) (items : List α) :
    (writeItems write h items).stream = h.stream ++ counted lengthCode code items := by
  have loop : ∀ (items : List α) (h : Hasher),
      (items.foldl write h).stream = h.stream ++ items.flatMap code := by
    intro items
    induction items with
    | nil => intro h; simp
    | cons x xs ih => intro h; simp [ih, appends]
  simp [writeItems, loop, counted, lengthCode]

/-- The five sections as one code. -/
def sectionsCode (c : Sections) : List UInt8 :=
  counted lengthCode fieldCode c.inputs ++ (counted lengthCode fieldCode c.outputs ++
    (counted lengthCode opCode c.ops ++ (counted lengthCode activationCode c.activations ++
      counted lengthCode interventionCode c.interventions)))

theorem stream_writeSections (h : Hasher) (c : Sections) :
    (writeSections h c).stream = h.stream ++ sectionsCode c := by
  simp [writeSections, sectionsCode, stream_writeItems stream_writeField,
    stream_writeItems stream_writeOp, stream_writeItems stream_writeActivation,
    stream_writeItems stream_writeIntervention]

/-- Every list, name and byte blob has a length that a `u64` can hold. -/
structure Sections.Fits (c : Sections) : Prop where
  inputs : c.inputs.length < 2 ^ 64 ∧ ∀ f ∈ c.inputs, f.Fits
  outputs : c.outputs.length < 2 ^ 64 ∧ ∀ f ∈ c.outputs, f.Fits
  ops : c.ops.length < 2 ^ 64 ∧ ∀ op ∈ c.ops, op.Fits
  activations : c.activations.length < 2 ^ 64 ∧ ∀ act ∈ c.activations, act.Fits
  interventions : c.interventions.length < 2 ^ 64 ∧ ∀ intv ∈ c.interventions, intv.Fits

theorem sectionsCode_readable : ReadableOn Sections.Fits sectionsCode := by
  have fields := lengthCode_readable.counted fieldCode_readable
  have ops := lengthCode_readable.counted opCode_readable
  have acts := lengthCode_readable.counted activationCode_readable
  have intvs := lengthCode_readable.counted interventionCode_readable
  have parts := fields.pair (fields.pair (ops.pair (acts.pair intvs)))
  have view : Function.Injective fun c : Sections =>
      (c.inputs, c.outputs, c.ops, c.activations, c.interventions) := by
    intro a b eq
    cases a
    cases b
    simpa using eq
  exact (parts.comap view).mono fun _ fits =>
    ⟨fits.inputs, fits.outputs, fits.ops, fits.activations, fits.interventions⟩

/-! ### The two formats -/

theorem preV1_eq (c : Sections) : preV1 c = domainV1 ++ sectionsCode c := by
  simp [preV1, stream_writeSections]

theorem preV2_eq (c : Sections) :
    preV2 c = domainV2 ++ (nameCode regime ++ sectionsCode c) := by
  simp [preV2, stream_writeSections, nameCode, blob, lengthCode]

theorem preV1_readable : ReadableOn Sections.Fits preV1 := by
  have code := sectionsCode_readable.tag domainV1
  intro a b s t ha hb eq
  rw [preV1_eq, preV1_eq] at eq
  exact code a b s t ha hb eq

theorem preV2_readable : ReadableOn Sections.Fits preV2 := by
  have code := (sectionsCode_readable.tag (nameCode regime)).tag domainV2
  intro a b s t ha hb eq
  rw [preV2_eq, preV2_eq] at eq
  exact code a b s t ha hb eq

/-- The version digit in the domain keeps the two formats apart. -/
theorem preV1_ne_preV2 (a b : Sections) : preV1 a ≠ preV2 b := by
  intro eq
  rw [preV1_eq, preV2_eq] at eq
  have digit := congrArg (fun stream => stream[17]?) eq
  have v1 : (domainV1 ++ sectionsCode a)[17]? = some 0x31 := by
    rw [List.getElem?_append_left (by decide)]
    decide
  have v2 : (domainV2 ++ (nameCode regime ++ sectionsCode b))[17]? = some 0x32 := by
    rw [List.getElem?_append_left (by decide)]
    decide
  simp only [v1, v2, Option.some.injEq] at digit
  exact absurd digit (by decide)

/-- Each digest format determines the five lists it binds, and neither can be mistaken for
the other. -/
theorem receipt_encoding_injective (a b : Sections) (fitsA : a.Fits) (fitsB : b.Fits) :
    (preV2 a = preV2 b → a = b) ∧ (preV1 a = preV1 b → a = b) ∧ preV1 a ≠ preV2 b :=
  ⟨fun eq => preV2_readable.injective fitsA fitsB eq,
    fun eq => preV1_readable.injective fitsA fitsB eq,
    preV1_ne_preV2 a b⟩

/-- Splitting the same characters differently over two fields changes the stream. -/
theorem receipt_encoding_separates_fields :
    preV2 ⟨[⟨"a", [98, 99]⟩], [], [], [], []⟩ ≠ preV2 ⟨[⟨"ab", [99]⟩], [], [], [], []⟩ := by
  have fits : ∀ f : CertField, f.Fits → (⟨[f], [], [], [], []⟩ : Sections).Fits := by
    intro f fits
    constructor <;> simp [fits]
  have first : CertField.Fits ⟨"a", [98, 99]⟩ := ⟨by decide, by decide⟩
  have second : CertField.Fits ⟨"ab", [99]⟩ := ⟨by decide, by decide⟩
  intro eq
  have same := (receipt_encoding_injective _ _ (fits _ first) (fits _ second)).1 eq
  exact absurd same (by decide)

end VitniTensor
