import VitniTensor.Inference.Binding
import VitniTensor.Inference.Returns
import VitniTensor.Model.Described
import VitniTensor.Model.StoredModel

/-!
# The receipt command

`vitni-receipt` reads a model file, runs it and prints the digests of the run. A printed digest stands for one file,
one request and one answer; every file that describes its model is answered; and the printed tokens can be the next
prompt.
-/

namespace VitniTensor

open Outcome Exec Codec

/-! ### Hex digits -/

/-- `format!("{:02x}", x)` of every byte. -/
def hex (b : List UInt8) : String :=
  String.ofList (b.flatMap fun x => [Nat.digitChar (x.toNat / 16), Nat.digitChar (x.toNat % 16)])

theorem digitChar_inj {i j : Nat} (hi : i < 16) (hj : j < 16) (h : Nat.digitChar i = Nat.digitChar j) : i = j := by
  have hall : ∀ i < 16, ∀ j < 16, Nat.digitChar i = Nat.digitChar j → i = j := by decide
  exact hall i hi j hj h

theorem hex_injective : Function.Injective fun h : Hash => hex h.toList := by
  -- Two digits a byte, so a digest's text is read back byte by byte.
  have hbyte : ReadableOn (fun _ : UInt8 => True)
      fun x => [Nat.digitChar (x.toNat / 16), Nat.digitChar (x.toNat % 16)] := by
    refine readableOn_of_length 2 (fun x _ => rfl) fun x y _ _ heq => ?_
    obtain ⟨hhigh, hrest⟩ := List.cons.inj heq
    obtain ⟨hlow, -⟩ := List.cons.inj hrest
    have hx := x.toNat_lt
    have hy := y.toNat_lt
    have hhigh' := digitChar_inj (by omega) (by omega) hhigh
    have hlow' := digitChar_inj (Nat.mod_lt _ (by decide)) (Nat.mod_lt _ (by decide)) hlow
    exact UInt8.toNat_inj.mp (by omega)
  intro a b heq
  have hchars := String.ofList_injective heq
  have hlength : a.toList.length = b.toList.length := by rw [a.length_toList, b.length_toList]
  have hlist := (hbyte.flatMap a.toList b.toList hlength (fun _ _ => trivial) (fun _ _ => trivial) [] []
    (by rw [List.append_nil, List.append_nil]; exact hchars)).1
  exact Vector.toList_inj.mp hlist

/-! ### The prompt -/

namespace VitniReceipt

/-- `.expect`: an error ends in a panic. -/
def expect {α : Type} (x : Res α) : Res α :=
  match x with
  | .error (.err _) => panic .explicit
  | other => other

@[simp] theorem expect_ok {α : Type} (a : α) : expect (.ok a) = .ok a := rfl

theorem expect_eq_ok {α : Type} {x : Res α} {a : α} : expect x = .ok a ↔ x = .ok a := by
  rcases x with ⟨e | p⟩ | a' <;> simp [expect, Outcome.panic]

/-- `char::is_whitespace` -/
def isWhitespace (c : Char) : Bool :=
  (9 ≤ c.toNat && c.toNat ≤ 13) || c.toNat = 0x20 || c.toNat = 0x85 || c.toNat = 0xA0 || c.toNat = 0x1680 ||
    (0x2000 ≤ c.toNat && c.toNat ≤ 0x200A) || c.toNat = 0x2028 || c.toNat = 0x2029 || c.toNat = 0x202F ||
    c.toNat = 0x205F || c.toNat = 0x3000

/-- `str::trim` -/
def trim (cs : List Char) : List Char :=
  ((cs.dropWhile isWhitespace).reverse.dropWhile isWhitespace).reverse

/-- One more digit, with the check for an overflow. -/
def pushDigit (acc : Nat) (c : Char) : Option Nat :=
  if c.isDigit && acc * 10 + (c.toNat - 48) < 2 ^ 32 then some (acc * 10 + (c.toNat - 48)) else none

/-- `parse::<u32>` -/
def parseU32 (cs : List Char) : Option UInt32 :=
  let digits := match cs with
    | '+' :: rest => rest
    | _ => cs
  if digits.isEmpty then none else (digits.foldlM pushDigit 0).map UInt32.ofNat

/-- The token ids of `--prompt`. -/
def promptTokens (prompt : String) : Res (List UInt32) :=
  (prompt.toList.splitOn ',').mapM fun s => ((parseU32 (trim s)).elim (panic .explicit) pure : Res UInt32)

/-- `toks.join(",")` -/
def joined (tokens : List UInt32) : String :=
  String.ofList ([','].intercalate (tokens.map fun t => (toString t.toNat).toList))

/-! ### A run -/

/-- What is printed. -/
structure Line where
  modelDigest : String
  modelDigestV1 : String
  weightsHash : String
  tokens : String
  deriving DecidableEq, Repr

/-- The JSON object of the line. -/
def Line.json (l : Line) : String :=
  "\x7b\"model_digest\":\"" ++ l.modelDigest ++ "\",\"regime\":\"" ++ regime ++ "\",\"model_digest_v1\":\"" ++
    l.modelDigestV1 ++ "\",\"weights_hash\":\"" ++ l.weightsHash ++ "\",\"tokens\":[" ++ l.tokens ++ "]\x7d"

/-- The line of a generation. -/
def Line.of (blake3 : Blake3) (weightsHash : Hash) (g : Generation) : Line where
  modelDigest := hex g.cert.digest.toList
  modelDigestV1 := hex (computeDigestV1 blake3 g.cert.toSections).toList
  weightsHash := hex weightsHash.toList
  tokens := joined g.generatedTokens

/-- What `main` does with the bytes of the file and the request. -/
def attest (F : Type) [F32 F] (build : Build) (blake3 : Blake3) (aligned : String → Bool) (blob : List UInt8)
    (req : Request) : Res Generation := do
  let weightsHash := blake3 blob
  let gguf ← expect (GgufFile.parsed blob)
  let cfg ← expect (Config.fromGguf gguf)
  let weights ← expect (QuantizedWeights.fromGguf aligned gguf cfg : Res (QuantizedWeights F))
  expect (runQuantized build blake3 cfg weights weightsHash req)

/-- `main`, from its arguments and the bytes of the file to what is printed. -/
def main (F : Type) [F32 F] (build : Build) (blake3 : Blake3) (aligned : String → Bool) (prompt : String) (n : Nat)
    (blob : List UInt8) (modelId : String) : Res Line := do
  let tokens ← promptTokens prompt
  let a ← attest F build blake3 aligned blob ⟨modelId, tokens, n⟩
  pure (.of blake3 (blake3 blob) a)

/-! ### Printed tokens as a prompt -/

theorem trim_eq {cs : List Char} (h : ∀ c ∈ cs, isWhitespace c = false) : trim cs = cs := by
  have hdrop : ∀ {ds : List Char}, (∀ c ∈ ds, isWhitespace c = false) → ds.dropWhile isWhitespace = ds := by
    intro ds hds
    cases ds with
    | nil => rfl
    | cons d ds => rw [List.dropWhile_cons_of_neg (by simp [hds d List.mem_cons_self])]
  unfold trim
  rw [hdrop h, hdrop fun c hc => h c (List.mem_reverse.mp hc), List.reverse_reverse]

theorem le_ofDigitChars (cs : List Char) (acc : Nat) : acc ≤ Nat.ofDigitChars 10 cs acc := by
  induction cs generalizing acc with
  | nil => exact Nat.le_refl acc
  | cons c cs ih =>
    have hrest := ih (10 * acc + (c.toNat - '0'.toNat))
    rw [Nat.ofDigitChars_cons]
    omega

/-- The checked digits of a number that fits. -/
theorem foldlM_pushDigit {cs : List Char} (hdigits : ∀ c ∈ cs, c.isDigit = true) {acc : Nat}
    (hfits : Nat.ofDigitChars 10 cs acc < 2 ^ 32) : cs.foldlM pushDigit acc = some (Nat.ofDigitChars 10 cs acc) := by
  induction cs generalizing acc with
  | nil => rfl
  | cons c cs ih =>
    obtain ⟨hc, hrest⟩ := List.forall_mem_cons.mp hdigits
    -- `push_digit` adds the digit to ten times the number so far.
    have hnext : acc * 10 + (c.toNat - 48) = 10 * acc + (c.toNat - '0'.toNat) := by
      rw [Nat.mul_comm]
      rfl
    rw [Nat.ofDigitChars_cons] at hfits ⊢
    have hle := le_ofDigitChars cs (10 * acc + (c.toNat - '0'.toNat))
    -- The numbers only grow, so the checked product and sum fit at every digit.
    have hpush : pushDigit acc c = some (10 * acc + (c.toNat - '0'.toNat)) := by
      unfold pushDigit
      rw [hnext, hc, if_pos (by simp; omega)]
    rw [List.foldlM_cons, hpush]
    exact ih hrest hfits

theorem parseU32_toDigits (t : UInt32) : parseU32 (Nat.toDigits 10 t.toNat) = some t := by
  have hdigits : ∀ c ∈ Nat.toDigits 10 t.toNat, c.isDigit = true :=
    fun c hc => Nat.isDigit_of_mem_toDigits (Nat.zero_lt_succ 9) (Nat.le_refl 10) hc
  have hvalue : Nat.ofDigitChars 10 (Nat.toDigits 10 t.toNat) 0 = t.toNat := Nat.ofDigitChars_ten_toDigits
  have hfold := @foldlM_pushDigit (Nat.toDigits 10 t.toNat) hdigits 0 (by rw [hvalue]; exact t.toNat_lt)
  rw [hvalue] at hfold
  unfold parseU32
  cases hchars : Nat.toDigits 10 t.toNat with
  | nil => exact absurd hchars Nat.toDigits_ne_nil
  | cons c cs =>
    rw [hchars] at hfold hdigits
    -- a digit is no sign
    have hsign : c ≠ '+' := by
      rintro rfl
      exact absurd (hdigits '+' List.mem_cons_self) (by decide)
    split
    next heq => exact absurd (List.cons.inj heq).1 hsign
    next =>
      dsimp only
      rw [List.isEmpty_cons, if_neg (by decide), hfold, Option.map_some, UInt32.ofNat_toNat]

theorem not_isWhitespace_of_isDigit {c : Char} (h : c.isDigit = true) : isWhitespace c = false := by
  simp only [Char.isDigit, Bool.and_eq_true, decide_eq_true_eq, ge_iff_le, UInt32.le_iff_toNat_le] at h
  have hlow : 48 ≤ c.toNat := h.1
  have hhigh : c.toNat ≤ 57 := h.2
  unfold isWhitespace
  simp only [Bool.or_eq_false_iff, Bool.and_eq_false_iff, decide_eq_false_iff_not]
  omega

/-- **The printed tokens can be the next prompt**, where there are any. -/
theorem promptTokens_joined (tokens : List UInt32) :
    promptTokens (joined tokens) = if tokens = [] then panic .explicit else .ok tokens := by
  have hdigits : ∀ t : UInt32, ∀ c ∈ Nat.toDigits 10 t.toNat, c.isDigit = true :=
    fun t c hc => Nat.isDigit_of_mem_toDigits (Nat.zero_lt_succ 9) (Nat.le_refl 10) hc
  have hparsed : ∀ t : UInt32, ((parseU32 (trim (Nat.toDigits 10 t.toNat))).elim (panic .explicit) pure : Res UInt32) =
      .ok t := fun t => by
    rw [trim_eq fun c hc => not_isWhitespace_of_isDigit (hdigits t c hc), parseU32_toDigits]
    rfl
  by_cases hnone : tokens = []
  · subst hnone
    rfl
  · unfold promptTokens joined
    simp only [Nat.toString_eq_repr, Nat.toList_repr, String.toList_ofList]
    -- The text is split at commas, and no number contains one.
    rw [List.splitOn_intercalate, if_neg hnone]
    · clear hnone
      induction tokens with
      | nil => rfl
      | cons t tokens ih =>
        rw [List.map_cons, List.mapM_cons, hparsed, ok_bind, ih, ok_bind]
        rfl
    · intro l hl
      obtain ⟨t, -, rfl⟩ := List.mem_map.mp hl
      exact fun hcomma => absurd (hdigits t ',' hcomma) (by decide)
    · simpa using hnone

/-! ### What a digest stands for -/

section Binding

variable {F : Type} [F32 F] {build : Build} {blake3 : Blake3} {aligned : String → Bool} {blob : List UInt8} {req : Request}
  {g : Generation}

theorem issued_of_attest (h : attest F build blake3 aligned blob req = .ok g) :
    (∃ cfg, Issued blake3 cfg (blake3 blob) req g) ∧ req.nNewTokens * 4 < 2 ^ 63 := by
  -- Opening the driver from outside: parse, configuration, weights, then the run.
  obtain ⟨gguf, -, h⟩ := bind_eq_ok.mp h
  obtain ⟨cfg, -, h⟩ := bind_eq_ok.mp h
  obtain ⟨weights, -, h⟩ := bind_eq_ok.mp h
  have hrun := expect_eq_ok.mp h
  unfold runQuantized withoutSink at hrun
  split at hrun
  next outcome certId hout =>
    cases hrun
    obtain ⟨u, hfresh⟩ : ∃ u, (runQuantizedWithSink build blake3 cfg weights (blake3 blob) req nullSink 0).eval () =
        (.ok (g, certId), u) := ⟨_, Prod.ext hout rfl⟩
    unfold runQuantizedWithSink issueFresh at hfresh
    -- The run was made on a fresh state; what it issued is the receipt of the request.
    obtain ⟨fresh, t, -, hinner⟩ := eval_bind_eq_ok.mp hfresh
    rw [eval_withLocal, Prod.mk.injEq] at hinner
    obtain ⟨u', hissue⟩ : ∃ u', (runQuantizedWithForward blake3 cfg (blake3 blob) req nullSink 0
        (step build blake3 cfg weights)).eval (id fresh, t) = (.ok (g, certId), u') := ⟨_, Prod.ext hinner.1 rfl⟩
    refine ⟨⟨cfg, .withForward _ nullSink 0 certId _ _ hissue⟩, ?_⟩
    obtain ⟨⟨t, htokens⟩, -⟩ := issue_eq_ok hissue
    obtain ⟨done, t', hreserved, -⟩ := eval_bind_eq_ok.mp htokens
    rw [eval_lift, Prod.mk.injEq] at hreserved
    -- A request too large for its reservation has stopped before anything was issued.
    by_contra hlarge
    rw [reserveTokens, if_neg hlarge] at hreserved
    exact absurd hreserved.1 (by simp)
  next => cases hrun
  next => cases hrun

/-- The byte strings behind the digests of a run. -/
def hashed (blob : List UInt8) (g : Generation) : Set (List UInt8) :=
  {blob, preV2 g.cert.toSections, preV1 g.cert.toSections}

/-- The texts of a request are in memory. -/
structure InMemory (req : Request) : Prop where
  modelId : req.modelId.asBytes.length < 2 ^ 64
  prompt : req.promptTokens.length * 4 < 2 ^ 64

theorem fits_of_attest (h : attest F build blake3 aligned blob req = .ok g) (hreq : InMemory req) :
    g.cert.toSections.Fits := by
  obtain ⟨⟨cfg, hissued⟩, hnew⟩ := issued_of_attest h
  obtain ⟨hcount, hcert⟩ := hissued.cert_eq
  have hname : ∀ {name : String} {bytes : List UInt8}, name.asBytes.length < 2 ^ 64 → bytes.length < 2 ^ 64 →
      CertField.Fits ⟨name, bytes⟩ := fun hn hb => ⟨hn, hb⟩
  have hhash : ∀ hash : Hash, hash.toList.length < 2 ^ 64 := fun hash => by
    rw [hash.length_toList]
    decide
  have hnone : ∀ {α : Type} {P : α → Prop}, ([] : List α).length < 2 ^ 64 ∧ ∀ a ∈ ([] : List α), P a :=
    ⟨Nat.two_pow_pos 64, fun a hmem => absurd hmem List.not_mem_nil⟩
  rw [hcert]
  refine ⟨⟨show 5 < 2 ^ 64 by decide, ?_⟩, ⟨show 2 < 2 ^ 64 by decide, ?_⟩, hnone, hnone, hnone⟩
  -- The five declared inputs.
  · intro f hf
    simp only [CertBuilder.finalize, bindOutputs, bindInputs, CertBuilder.declareInput, CertBuilder.declareOutput,
      CertBuilder.new, List.nil_append, List.cons_append, List.mem_cons, List.not_mem_nil, or_false] at hf
    rcases hf with rfl | rfl | rfl | rfl | rfl
    · exact hname (by decide) hreq.modelId
    · exact hname (by decide) (hhash _)
    · exact hname (by decide) (hhash _)
    · exact hname (by decide) (by rw [length_u32SliceToLeBytes]; exact hreq.prompt)
    · exact hname (by decide) (by rw [LittleEndian.length_toBytes]; decide)
  -- The two declared outputs.
  · intro f hf
    simp only [CertBuilder.finalize, bindOutputs, bindInputs, CertBuilder.declareInput, CertBuilder.declareOutput,
      CertBuilder.new, List.nil_append, List.cons_append, List.mem_cons, List.not_mem_nil, or_false] at hf
    rcases hf with rfl | rfl
    · exact hname (by decide) (by rw [length_u32SliceToLeBytes, hcount]; omega)
    · exact hname (by decide) (hhash _)

/-- The digest that is printed is the hash of the receipt. -/
theorem digest_of_attest (h : attest F build blake3 aligned blob req = .ok g) :
    g.cert.digest = blake3 (preV2 g.cert.toSections) := by
  obtain ⟨⟨cfg, hissued⟩, -⟩ := issued_of_attest h
  rw [hissued.cert_eq.2]
  rfl

/-- The name of the model comes first. -/
theorem modelId_first (h : attest F build blake3 aligned blob req = .ok g) : ∃ rest,
    preV2 g.cert.toSections = (domainV2 ++ nameCode regime ++ lengthCode 5 ++
      fieldCode ⟨"model_id", req.modelId.asBytes⟩) ++ rest ∧
    preV1 g.cert.toSections = (domainV1 ++ lengthCode 5 ++ fieldCode ⟨"model_id", req.modelId.asBytes⟩) ++ rest := by
  obtain ⟨⟨cfg, hissued⟩, -⟩ := issued_of_attest h
  obtain ⟨-, hcert⟩ := hissued.cert_eq
  -- The inputs are written first, and the model's name is the first of them.
  obtain ⟨rest, hrest⟩ : ∃ rest, sectionsCode g.cert.toSections =
      lengthCode 5 ++ (fieldCode ⟨"model_id", req.modelId.asBytes⟩ ++ rest) := by
    rw [hcert]
    simp only [CertBuilder.finalize, bindOutputs, bindInputs, CertBuilder.declareInput, CertBuilder.declareOutput,
      CertBuilder.new, List.nil_append, List.cons_append, sectionsCode, Codec.counted, List.flatMap_cons,
      List.length_cons, List.length_nil, List.append_assoc]
    exact ⟨_, rfl⟩
  refine ⟨rest, ?_, ?_⟩
  · rw [preV2_eq, hrest]
    simp only [List.append_assoc]
  · rw [preV1_eq, hrest]
    simp only [List.append_assoc]
variable {F' : Type} [F32 F'] {build' : Build} {aligned' : String → Bool} {blob' : List UInt8} {req' : Request}
  {g' : Generation}

/-- Equal receipts are of one file, one request and one answer. -/
theorem eq_of_sections (h : attest F build blake3 aligned blob req = .ok g)
    (h' : attest F' build' blake3 aligned' blob' req' = .ok g')
    (hcollision : Set.InjOn blake3 (hashed blob g ∪ hashed blob' g'))
    (hsections : g.cert.toSections = g'.cert.toSections) : blob = blob' ∧ req = req' ∧ g = g' := by
  obtain ⟨⟨cfg, hissued⟩, -⟩ := issued_of_attest h
  obtain ⟨⟨cfg', hissued'⟩, -⟩ := issued_of_attest h'
  obtain ⟨hcount, hcert⟩ := hissued.cert_eq
  obtain ⟨hcount', hcert'⟩ := hissued'.cert_eq
  -- Compare the two receipts field by field; what the driver bound stands in them.
  have hsame := hsections
  rw [hcert, hcert'] at hsame
  simp only [CertBuilder.finalize, bindOutputs, bindInputs, CertBuilder.declareInput, CertBuilder.declareOutput,
    CertBuilder.new, List.nil_append, List.cons_append, Sections.mk.injEq, List.cons.injEq, CertField.mk.injEq, true_and,
    and_true] at hsame
  obtain ⟨⟨hmodel, hweights, -, hprompt, -⟩, hgenerated, -⟩ := hsame
  -- The weights' field is the digest of the file, and digests do not collide here.
  have hblob : blob = blob' :=
    hcollision (.inl (Set.mem_insert _ _)) (.inr (Set.mem_insert _ _)) (Vector.toList_inj.mp hweights)
  have htokens := u32SliceToLeBytes_injective hgenerated
  have hnew : req.nNewTokens = req'.nNewTokens := by rw [← hcount, ← hcount', htokens]
  refine ⟨hblob, ?_, ?_⟩
  -- Name, prompt and number of tokens are read back from the fields that carry them.
  · obtain ⟨modelId, promptTokens, nNewTokens⟩ := req
    obtain ⟨modelId', promptTokens', nNewTokens'⟩ := req'
    obtain rfl := String.asBytes_injective hmodel
    obtain rfl := u32SliceToLeBytes_injective hprompt
    obtain rfl : nNewTokens = nNewTokens' := hnew
    rfl
  -- The digest is computed from the sections, so it is no further information.
  · have hdigest : g.cert.digest = g'.cert.digest := by rw [digest_of_attest h, digest_of_attest h', hsections]
    obtain ⟨generated, sections, digest⟩ := g
    obtain ⟨generated', sections', digest'⟩ := g'
    obtain rfl : generated = generated' := htokens
    obtain rfl : sections = sections' := hsections
    obtain rfl : digest = digest' := hdigest
    rfl

/-- **A printed digest stands for one run**, on whatever machines the two runs were: where the hash function has no
collision among the strings that they hash, equal digests of either format are of the same file, request and answer,
and a digest of one format is never one of the other. -/
theorem digests_bind (h : attest F build blake3 aligned blob req = .ok g)
    (h' : attest F' build' blake3 aligned' blob' req' = .ok g') (hreq : InMemory req) (hreq' : InMemory req')
    (hcollision : Set.InjOn blake3 (hashed blob g ∪ hashed blob' g')) :
    ((Line.of blake3 (blake3 blob) g).modelDigest = (Line.of blake3 (blake3 blob') g').modelDigest →
        blob = blob' ∧ req = req' ∧ g = g') ∧
      ((Line.of blake3 (blake3 blob) g).modelDigestV1 = (Line.of blake3 (blake3 blob') g').modelDigestV1 →
        blob = blob' ∧ req = req' ∧ g = g') ∧
      (Line.of blake3 (blake3 blob) g).modelDigest ≠ (Line.of blake3 (blake3 blob') g').modelDigestV1 := by
  have hfits := fits_of_attest h hreq
  have hfits' := fits_of_attest h' hreq'
  have hdigest := digest_of_attest h
  have hdigest' := digest_of_attest h'
  refine ⟨fun heq => ?_, fun heq => ?_, fun heq => ?_⟩
  -- Digests of format 2: the preimage is among the hashed strings, and it is readable.
  · have hhash : g.cert.digest = g'.cert.digest := hex_injective heq
    rw [hdigest, hdigest'] at hhash
    have hpre := hcollision (.inl (by simp [hashed])) (.inr (by simp [hashed])) hhash
    exact eq_of_sections h h' hcollision (preV2_readable.injective hfits hfits' hpre)
  -- Digests of format 1 likewise.
  · have hpre := hcollision (.inl (by simp [hashed])) (.inr (by simp [hashed])) (hex_injective heq)
    exact eq_of_sections h h' hcollision (preV1_readable.injective hfits hfits' hpre)
  -- Across the formats the preimages start differently.
  · have hhash : g.cert.digest = computeDigestV1 blake3 g'.cert.toSections := hex_injective heq
    rw [hdigest] at hhash
    have hpre := hcollision (.inl (by simp [hashed])) (.inr (by simp [hashed])) hhash
    exact preV1_ne_preV2 _ _ hpre.symm

end Binding

/-! ### Files that describe their model -/

section Answers

variable {F : Type} [F32 F] {build : Build} {blake3 : Blake3} {aligned : String → Bool} {blob : List UInt8}
  {gguf : GgufFile} {cfg : Config} {headSize kvMul : Nat} {w : QuantizedWeights F}

/-- A file in memory that all loaders accept. -/
structure Loads (aligned : String → Bool) (blob : List UInt8) (gguf : GgufFile) (cfg : Config) (w : QuantizedWeights F) :
    Prop where
  parsed : GgufFile.parsed blob = .ok gguf
  config : Config.fromGguf gguf = .ok cfg
  weights : QuantizedWeights.fromGguf aligned gguf cfg = .ok w
  memory : blob.length < 2 ^ 63

theorem Loads.attest_eq (h : Loads aligned blob gguf cfg w) (req : Request) :
    attest F build blake3 aligned blob req = expect (runQuantized build blake3 cfg w (blake3 blob) req) := by
  unfold attest
  simp only [h.parsed, h.config, h.weights, expect_ok, ok_bind]

/-- A file whose tensors have the shapes of its configuration, with heads in groups and room for the caches. -/
structure Consistent (aligned : String → Bool) (gguf : GgufFile) (cfg : Config) (headSize kvMul : Nat) : Prop where
  describes : gguf.Describes aligned cfg headSize
  grouped : cfg.Grouped headSize kvMul
  dim : 0 < cfg.dim
  caches : cfg.CachesFit

theorem Loads.complete (h : Loads aligned blob gguf cfg w) (hg : Consistent aligned gguf cfg headSize kvMul) :
    w.Complete cfg headSize kvMul :=
  ⟨hg.grouped, (readsWeights_of_fromGguf h.weights).sized h.parsed h.memory hg.describes, hg.dim, hg.caches⟩

/-- **Every request in bounds is answered** on a file that describes its model, whatever its dtypes and biases. -/
theorem attest_answers (h : Loads aligned blob gguf cfg w) (hg : Consistent aligned gguf cfg headSize kvMul) {req : Request}
    (hreq : req.InBounds cfg) : Answers cfg req (attest F build blake3 aligned blob req) := by
  obtain ⟨g, hrun, hcount, hknown⟩ := @QuantizedWeights.Complete.fresh F _ build blake3 cfg w headSize kvMul
    (h.complete hg) req hreq id (fun _ hs => hs) (blake3 blob)
  refine ⟨g, ?_, hcount, hknown⟩
  rw [h.attest_eq]
  exact expect_eq_ok.mpr hrun

theorem Loads.isFloat (h : Loads aligned blob gguf cfg w) (hg : Consistent aligned gguf cfg headSize kvMul)
    (hfloat : gguf.IsFloat cfg) {p : Pass F} (hpass : passOf build blake3 cfg w none 0 2 = .ok p) : p.IsFloat := by
  have hreads := readsWeights_of_fromGguf h.weights
  obtain ⟨hp, rfl⟩ := passOf_ok hg.grouped hpass
  refine ⟨hp, rfl, show (2 : UInt8) ≠ 3 by decide, hg.dim, (h.complete hg).sized, fun blk hmem => ?_, ?_, hreads.neox_false hfloat⟩
  · obtain ⟨l, hl⟩ := List.getElem?_of_mem hmem
    exact (hreads.layers l blk hl).isFloat hfloat (hreads.count ▸ (List.getElem?_eq_some_iff.mp hl).1)
  · unfold Pass.lmHead
    cases hwcls : w.wcls with
    | none => exact hreads.embedding.dtype (P := (· ≠ .q6_k)) hfloat.embedding
    | some m => exact (hreads.output m hwcls).dtype (P := (· ≠ .q6_k)) hfloat.output

/-- **The answer to a request is that of the net** of the decoded weights, on a float file that describes its model. -/
theorem attest_net (h : Loads aligned blob gguf cfg w) (hg : Consistent aligned gguf cfg headSize kvMul)
    (hfloat : gguf.IsFloat cfg) {req : Request} (hreq : req.InBounds cfg) :
    ∃ p, passOf build blake3 cfg w none 0 2 = .ok p ∧ attest F build blake3 aligned blob req =
      .ok (.of blake3 cfg (blake3 blob) req (p.net.generate canonicalValue req.promptTokens req.nNewTokens)) := by
  obtain ⟨p, hpass⟩ := @QuantizedWeights.Complete.passOf_returns F build blake3 cfg w headSize kvMul (h.complete hg) 0 2
  refine ⟨p, hpass, ?_⟩
  have hp := h.isFloat hg hfloat hpass
  obtain rfl := passOf_cfg hpass
  have hreceipt := @Pass.Computes.receipt _ _ _ _ blake3 (blake3 blob) req nullSink 0 _ _ _ _ _
    (hp.computes hpass) rfl (passOf_kvDim hpass) hg.caches hreq
  rw [h.attest_eq, expect_eq_ok]
  exact congrArg withoutSink hreceipt

end Answers

/-! ### The small model -/

section Small

open StoredModel (small loaded tensors)
open QuantizedWeights (layerKey)

/-- A tensor of a written model is one of the model's. -/
theorem has_of_mem {m : StoredModel} (h : m.WellFormed) {name : String} {P : GgufTensor → Prop}
    (hP : ∀ s, (name, s) ∈ m.tensors → P (loaded (name, s))) : (GgufFile.fileOf m.gguf).Has name P := by
  intro t ht
  by_cases hname : name ∈ m.tensors.map Prod.fst
  · obtain ⟨e, he, rfl⟩ := List.mem_map.mp hname
    rw [StoredModel.tensor_of_mem h (s := e.2) he] at ht
    cases ht
    exact hP e.2 he
  · rw [StoredModel.tensor_of_notMem hname h] at ht
    cases ht

theorem loads_small : Loads (fun _ => true) small.gguf.write (GgufFile.fileOf small.gguf) small.config
    (small.weights (fun _ => true) : QuantizedWeights Cost) where
  parsed := StoredModel.parsed_gguf StoredModel.wellFormed_small
  config := StoredModel.config_of_file StoredModel.wellFormed_small
  weights := StoredModel.weights_of_file StoredModel.wellFormed_small fun _ => rfl
  memory := StoredModel.wellFormed_small.size

/-- The vectors of the small model. -/
def vectorNames : List String :=
  ["output_norm.weight", layerKey 0 "attn_norm.weight", layerKey 0 "ffn_norm.weight"]

theorem shapes_small : ∀ e ∈ small.tensors, e.2.dtype = .f32 ∧
    e.2.shape.map UInt64.toNat = if e.1 ∈ vectorNames then [2] else [2, 2] := by decide +kernel

theorem consistent_small : Consistent (fun _ => true) (GgufFile.fileOf small.gguf) small.config 2 1 := by
  -- The layers' matrices and both ends of the model are 2 by 2.
  have hmatrix : ∀ {name : String}, name ∉ vectorNames →
      (GgufFile.fileOf small.gguf).Has name (GgufTensor.IsMatrix (fun _ => true) 2 2) := by
    intro name hname
    refine has_of_mem StoredModel.wellFormed_small fun s hs => ?_
    obtain ⟨hdtype, hshape⟩ := shapes_small _ hs
    rw [if_neg hname] at hshape
    refine ⟨hshape, ⟨1, 4, ?_, rfl⟩, fun _ => rfl, by decide, fun _ => by decide⟩
    rw [show (loaded (name, s)).dtype = .f32 from hdtype]
    rfl
  -- The norms are vectors of two entries.
  have hvector : ∀ {name : String}, name ∈ vectorNames →
      (GgufFile.fileOf small.gguf).Has name fun t => t.shape.map UInt64.toNat = [2] := by
    intro name hname
    refine has_of_mem StoredModel.wellFormed_small fun s hs => ?_
    obtain ⟨-, hshape⟩ := shapes_small _ hs
    rwa [if_pos hname] at hshape
  have hparts : ∀ part ∈ (layerMatrices small.config 2).map Prod.fst, layerKey 0 part ∉ vectorNames := by decide +kernel
  have hsizes : ∀ e ∈ layerMatrices small.config 2, e.2 = (2, 2) := by decide
  have hlayer : ∀ l < small.config.nLayers, l = 0 := by decide
  refine ⟨⟨hmatrix (by decide +kernel), hmatrix (by decide +kernel), hvector (by decide +kernel), ?_, ?_⟩,
    ⟨rfl, rfl, rfl⟩, by decide, ⟨by decide, by decide, by decide, by decide⟩⟩
  · intro l hl e he
    obtain rfl := hlayer l hl
    rw [hsizes e he]
    exact hmatrix (hparts e.1 (List.mem_map_of_mem he))
  · intro l hl part hpart
    obtain rfl := hlayer l hl
    have hnames : ∀ part ∈ ["attn_norm.weight", "ffn_norm.weight"], layerKey 0 part ∈ vectorNames := by decide +kernel
    exact hvector (hnames part hpart)

def smallAsk : Request :=
  ⟨"small", [1], 1⟩

theorem smallAsk_inBounds : smallAsk.InBounds small.config where
  some := List.cons_ne_nil 1 []
  tokens := List.forall_mem_singleton.mpr (show 1 < 2 by decide)
  fits := by decide
  vocab := by decide
  memory := by decide

theorem attest_answers_small : Answers small.config smallAsk
    (attest Cost .serial leadingBytes (fun _ => true) small.gguf.write smallAsk) :=
  attest_answers loads_small consistent_small smallAsk_inBounds

theorem isFloat_small : (GgufFile.fileOf small.gguf).IsFloat small.config := by
  -- All of its tensors are `f32`.
  have hdtype : ∀ name, (GgufFile.fileOf small.gguf).Has name (·.dtype ≠ .q6_k) := by
    intro name
    refine has_of_mem StoredModel.wellFormed_small fun s hs => ?_
    show s.dtype ≠ .q6_k
    rw [show s.dtype = .f32 from (shapes_small _ hs).1]
    decide
  -- The file has no bias.
  have hbiases : ∀ part ∈ ["attn_q.bias", "attn_k.bias", "attn_v.bias"],
      layerKey 0 part ∉ small.tensors.map Prod.fst := by decide +kernel
  have hlayer : ∀ l < small.config.nLayers, l = 0 := by decide
  refine ⟨hdtype _, hdtype _, fun _ _ _ _ => hdtype _, fun l hl part hpart => ?_, fun arch harch => ?_⟩
  · obtain rfl := hlayer l hl
    exact StoredModel.tensor_of_notMem (hbiases part hpart) StoredModel.wellFormed_small
  · rw [small.metadataStr_arch] at harch
    cases harch
    decide

theorem attest_net_small :
    ∃ p, passOf .serial leadingBytes small.config (small.weights (fun _ => true) : QuantizedWeights Cost) none 0 2 = .ok p ∧
      attest Cost .serial leadingBytes (fun _ => true) small.gguf.write smallAsk =
        .ok (.of leadingBytes small.config (leadingBytes small.gguf.write) smallAsk (p.net.generate canonicalValue [1] 1)) :=
  attest_net loads_small consistent_small isFloat_small smallAsk_inBounds

/-- A request by another name. -/
def otherAsk : Request :=
  ⟨"other", [1], 1⟩

theorem otherAsk_inBounds : otherAsk.InBounds small.config where
  some := List.cons_ne_nil 1 []
  tokens := List.forall_mem_singleton.mpr (show 1 < 2 by decide)
  fits := by decide
  vocab := by decide
  memory := by decide

/-- A hash that tells the two requests apart: every other byte of the first 64. -/
def everySecond : Blake3 :=
  fun bytes => Vector.ofFn fun i => bytes.getD (2 * i.val) 0

theorem everySecond_inj {a b : List UInt8} (h : everySecond a = everySecond b) {i : Nat} (hi : i < 32) :
    a.getD (2 * i) 0 = b.getD (2 * i) 0 := by
  have hbyte : (everySecond a)[i] = (everySecond b)[i] := by rw [h]
  simpa [everySecond] using hbyte

/-- The file, the four receipts: they differ in their first letter, their format or the name of the request. -/
theorem everySecond_injOn {g g' : Generation}
    (h : attest Cost .serial everySecond (fun _ => true) small.gguf.write smallAsk = .ok g)
    (h' : attest Cost .serial everySecond (fun _ => true) small.gguf.write otherAsk = .ok g') :
    Set.InjOn everySecond (hashed small.gguf.write g ∪ hashed small.gguf.write g') := by
  -- The hash reads every second byte: bytes 0, 20 and the one where the names part decide.
  have hfirst : small.gguf.write.getD (2 * 0) 0 = 0x47 := rfl
  obtain ⟨rest, hv2, hv1⟩ := modelId_first h
  obtain ⟨rest', hv2', hv1'⟩ := modelId_first h'
  have hsmall2 : (preV2 g.cert.toSections).getD (2 * 0) 0 = 0x76 ∧ (preV2 g.cert.toSections).getD (2 * 10) 0 = 0x76 ∧
      (preV2 g.cert.toSections).getD (2 * 23) 0 = 0x6D := by
    rw [hv2]
    refine ⟨?_, ?_, ?_⟩ <;> rw [List.getD_append _ _ _ _ (by decide +kernel)] <;> decide +kernel
  have hother2 : (preV2 g'.cert.toSections).getD (2 * 0) 0 = 0x76 ∧ (preV2 g'.cert.toSections).getD (2 * 10) 0 = 0x76 ∧
      (preV2 g'.cert.toSections).getD (2 * 23) 0 = 0x74 := by
    rw [hv2']
    refine ⟨?_, ?_, ?_⟩ <;> rw [List.getD_append _ _ _ _ (by decide +kernel)] <;> decide +kernel
  have hsmall1 : (preV1 g.cert.toSections).getD (2 * 0) 0 = 0x76 ∧ (preV1 g.cert.toSections).getD (2 * 10) 0 = 8 ∧
      (preV1 g.cert.toSections).getD (2 * 15) 0 = 0x73 := by
    rw [hv1]
    refine ⟨?_, ?_, ?_⟩ <;> rw [List.getD_append _ _ _ _ (by decide +kernel)] <;> decide +kernel
  have hother1 : (preV1 g'.cert.toSections).getD (2 * 0) 0 = 0x76 ∧ (preV1 g'.cert.toSections).getD (2 * 10) 0 = 8 ∧
      (preV1 g'.cert.toSections).getD (2 * 15) 0 = 0x6F := by
    rw [hv1']
    refine ⟨?_, ?_, ?_⟩ <;> rw [List.getD_append _ _ _ _ (by decide +kernel)] <;> decide +kernel
  -- Five strings are hashed; each pair differs in a byte that the hash keeps.
  intro a ha b hb heq
  have h0 := everySecond_inj heq (by decide : 0 < 32)
  have h10 := everySecond_inj heq (by decide : 10 < 32)
  have h15 := everySecond_inj heq (by decide : 15 < 32)
  have h23 := everySecond_inj heq (by decide : 23 < 32)
  obtain ⟨hsmall2First, hsmall2Format, hsmall2Name⟩ := hsmall2
  obtain ⟨hother2First, hother2Format, hother2Name⟩ := hother2
  obtain ⟨hsmall1First, hsmall1Format, hsmall1Name⟩ := hsmall1
  obtain ⟨hother1First, hother1Format, hother1Name⟩ := hother1
  clear heq hv1 hv2 hv1' hv2' h h'
  unfold hashed at ha hb
  generalize small.gguf.write = blob at *
  generalize preV2 g.cert.toSections = v2 at *
  generalize preV1 g.cert.toSections = v1 at *
  generalize preV2 g'.cert.toSections = v2' at *
  generalize preV1 g'.cert.toSections = v1' at *
  -- Equal strings, or bytes 0, 10, 15 or 23 of the digests tell them apart.
  rcases ha with (rfl | rfl | rfl) | rfl | rfl | rfl <;> rcases hb with (rfl | rfl | rfl) | rfl | rfl | rfl <;>
    first | rfl | simp_all

/-- The two requests get different digests. -/
theorem digests_bind_small : ∃ g g',
    attest Cost .serial everySecond (fun _ => true) small.gguf.write smallAsk = .ok g ∧
      attest Cost .serial everySecond (fun _ => true) small.gguf.write otherAsk = .ok g' ∧
      (Line.of everySecond (everySecond small.gguf.write) g).modelDigest ≠
        (Line.of everySecond (everySecond small.gguf.write) g').modelDigest ∧
      (Line.of everySecond (everySecond small.gguf.write) g).modelDigestV1 ≠
        (Line.of everySecond (everySecond small.gguf.write) g').modelDigestV1 ∧
      (Line.of everySecond (everySecond small.gguf.write) g).modelDigest ≠
        (Line.of everySecond (everySecond small.gguf.write) g').modelDigestV1 := by
  have hcomplete := loads_small.complete consistent_small
  obtain ⟨g, hrun, -⟩ := @QuantizedWeights.Complete.fresh Cost _ .serial everySecond small.config _ 2 1 hcomplete
    smallAsk smallAsk_inBounds id (fun _ hs => hs) (everySecond small.gguf.write)
  obtain ⟨g', hrun', -⟩ := @QuantizedWeights.Complete.fresh Cost _ .serial everySecond small.config _ 2 1 hcomplete
    otherAsk otherAsk_inBounds id (fun _ hs => hs) (everySecond small.gguf.write)
  have hattest : attest Cost .serial everySecond (fun _ => true) small.gguf.write smallAsk = .ok g := by
    rw [loads_small.attest_eq]
    exact expect_eq_ok.mpr hrun
  have hattest' : attest Cost .serial everySecond (fun _ => true) small.gguf.write otherAsk = .ok g' := by
    rw [loads_small.attest_eq]
    exact expect_eq_ok.mpr hrun'
  -- The names of the two requests differ, so by the theorem every digest does.
  obtain ⟨hsame, hsameV1, hformats⟩ := digests_bind hattest hattest' ⟨by decide, by decide⟩ ⟨by decide, by decide⟩
    (everySecond_injOn hattest hattest')
  have hnames : smallAsk ≠ otherAsk := by decide
  exact ⟨g, g', hattest, hattest', fun h => hnames (hsame h).2.1, fun h => hnames (hsameV1 h).2.1, hformats⟩

end Small

end VitniReceipt

end VitniTensor
