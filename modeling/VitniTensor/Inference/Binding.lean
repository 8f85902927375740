import VitniTensor.Cert.Injective
import VitniTensor.Inference.Prefill
import VitniTensor.Inference.Run

/-!
# What a receipt binds

The inputs and outputs of a receipt determine the request: the architecture string is uniquely
readable, the token lists are packed in fixed-width words, and the number of new tokens, of which
only 32 bits are declared, is the number of output tokens.
-/

namespace VitniTensor

open Outcome Exec Codec

/-! ### The architecture string -/

/-- A named number and the comma behind it. -/
def archField (name : String) (n : Nat) : List Char :=
  name.toList ++ ((toString n).toList ++ [','])

private theorem toString_readable :
    ReadableOn (fun _ => True) fun n : Nat => (toString n).toList ++ [','] := by
  refine readableOn_of_delimiter ',' (fun n _ hmem => ?_) fun n m _ _ heq => ?_
  · rw [Nat.toString_eq_repr, Nat.toList_repr] at hmem
    have hdigit := Nat.isDigit_of_mem_toDigits (Nat.zero_lt_succ 9) (Nat.le_refl 10) hmem
    exact absurd hdigit (by decide)
  · simp only [Nat.toString_eq_repr, Nat.toList_repr] at heq
    have hvalue := congrArg (fun digits => Nat.ofDigitChars 10 digits 0) heq
    simpa using hvalue

theorem archField_readable (name : String) : ReadableOn (fun _ => True) (archField name) :=
  toString_readable.tag name.toList

/-- The named flag at the end of the string. -/
def archFlag (name : String) (b : Bool) : List Char :=
  name.toList ++ (toString b).toList

theorem archFlag_readable (name : String) : ReadableOn (fun _ => True) (archFlag name) := by
  refine ReadableOn.tag (fun a b s t _ _ heq => ?_) name.toList
  have htrue : (toString true).toList = ['t', 'r', 'u', 'e'] := rfl
  have hfalse : (toString false).toList = ['f', 'a', 'l', 's', 'e'] := rfl
  cases a <;> cases b <;> simp_all

/-- The architecture string, field after field. -/
def archCode (cfg : Config) : List Char :=
  archField "llama2c:dim=" cfg.dim ++ (archField "hidden=" cfg.hiddenDim ++
    (archField "layers=" cfg.nLayers ++ (archField "heads=" cfg.nHeads ++
      (archField "kv_heads=" cfg.nKvHeads ++ (archField "vocab=" cfg.vocabSize ++
        (archField "seq=" cfg.seqLen ++ archFlag "shared=" cfg.sharedWeights))))))

theorem toList_archString (cfg : Config) : (archString cfg).toList = archCode cfg := by
  have hcomma : ",".toList = [','] := by simp
  -- the comma belongs to the field in front of it
  have hhidden : ",hidden=" = "," ++ "hidden=" := by simp
  have hlayers : ",layers=" = "," ++ "layers=" := by simp
  have hheads : ",heads=" = "," ++ "heads=" := by simp
  have hkv : ",kv_heads=" = "," ++ "kv_heads=" := by simp
  have hvocab : ",vocab=" = "," ++ "vocab=" := by simp
  have hseq : ",seq=" = "," ++ "seq=" := by simp
  have hshared : ",shared=" = "," ++ "shared=" := by simp
  unfold archString archCode archField archFlag
  rw [hhidden, hlayers, hheads, hkv, hvocab, hseq, hshared]
  simp only [String.toList_append, List.append_assoc, hcomma]

theorem archCode_readable : ReadableOn (fun _ => True) archCode := by
  have parts := (archField_readable "llama2c:dim=").pair ((archField_readable "hidden=").pair
    ((archField_readable "layers=").pair ((archField_readable "heads=").pair
      ((archField_readable "kv_heads=").pair ((archField_readable "vocab=").pair
        ((archField_readable "seq=").pair (archFlag_readable "shared=")))))))
  have view : Function.Injective fun cfg : Config => (cfg.dim, cfg.hiddenDim, cfg.nLayers, cfg.nHeads,
      cfg.nKvHeads, cfg.vocabSize, cfg.seqLen, cfg.sharedWeights) := by
    intro a b heq
    cases a
    cases b
    simpa using heq
  exact (parts.comap view).mono fun _ _ =>
    ⟨trivial, trivial, trivial, trivial, trivial, trivial, trivial, trivial⟩

/-- All eight numbers can be read off the architecture string. -/
theorem archString_injective : Function.Injective archString := by
  intro a b heq
  refine archCode_readable.injective trivial trivial ?_
  rw [← toList_archString, ← toList_archString, heq]

/-! ### Token lists -/

theorem length_u32SliceToLeBytes (ts : List UInt32) : (u32SliceToLeBytes ts).length = ts.length * 4 := by
  induction ts with
  | nil => rfl
  | cons t ts ih =>
    unfold u32SliceToLeBytes at ih ⊢
    rw [List.flatMap_cons, List.length_append, ih, LittleEndian.length_toBytes, List.length_cons]
    omega

theorem u32SliceToLeBytes_injective : Function.Injective u32SliceToLeBytes := by
  intro ts us heq
  have hlength := congrArg List.length heq
  rw [length_u32SliceToLeBytes, length_u32SliceToLeBytes] at hlength
  have hword : ReadableOn (fun t : UInt32 => t.toNat < 256 ^ 4) fun t => LittleEndian.toBytes 4 t.toNat :=
    (LittleEndian.readable 4).comap fun t u h => UInt32.toNat_inj.mp h
  refine (hword.flatMap ts us (by omega) (fun t _ => t.toNat_lt) (fun u _ => u.toNat_lt) [] [] ?_).1
  rw [List.append_nil, List.append_nil]
  exact heq

/-! ### Successful runs -/

section Runs

variable {F φ σ ε : Type} [F32 F]

/-- The decode loop of the prefill driver records one token per turn. -/
theorem length_prefillTokens {cfg : Config} {req : Request}
    {prefill : List UInt32 → Exec φ Error (Tensor F)} {decode : Forward φ F} {s s' : φ}
    {generated : List UInt32}
    (h : (prefillTokens cfg req prefill decode).eval s = (.ok generated, s')) :
    generated.length = req.nNewTokens := by
  unfold prefillTokens at h
  dsimp only at h
  split at h
  next hempty => cases h
  next hsome =>
    obtain ⟨total, t, -, h⟩ := eval_bind_eq_ok.mp h
    split at h
    next hlong => cases h
    next hshort =>
      obtain ⟨lastPrompt, t, -, h⟩ := eval_bind_eq_ok.mp h
      obtain ⟨cur, t, -, h⟩ := eval_bind_eq_ok.mp h
      obtain ⟨_, t, -, h⟩ := eval_bind_eq_ok.mp h
      obtain ⟨final, t, hloop, h⟩ := eval_bind_eq_ok.mp h
      cases h
      obtain ⟨past, hstart, hstop, hsteps⟩ := history hloop
      have hcount : ∀ i ≤ req.nNewTokens, (past i).1.2.length = i := by
        intro i
        induction i with
        | zero => intro _; rw [hstart]; rfl
        | succ i ih =>
          intro hi
          have hturn := hsteps i (by omega)
          obtain ⟨logits, t, -, hturn⟩ := eval_bind_eq_ok.mp hturn
          obtain ⟨picked, t, -, hturn⟩ := eval_bind_eq_ok.mp hturn
          obtain ⟨hnext, -⟩ := Prod.mk.inj hturn
          rw [← Except.ok.inj hnext, List.length_append, ih (by omega), List.length_singleton]
      have hlast := hcount req.nNewTokens (Nat.le_refl _)
      rw [hstop] at hlast
      exact hlast

/-- What a driver issued, from its token loop. -/
theorem issue_eq_ok {blake3 : Blake3} {cfg : Config} {weightsBlobHash : Hash} {req : Request}
    {sink : CertSink σ ε} {tier : UInt8} {tokens : Exec φ Error (List UInt32)} {s s' : φ × σ}
    {g : Generation} {certId : UInt64}
    (h : (issue blake3 cfg weightsBlobHash req sink tier tokens).eval s = (.ok (g, certId), s')) :
    (∃ t, tokens.eval s.1 = (.ok g.generatedTokens, t)) ∧
      g.cert = (bindOutputs blake3 (bindInputs blake3 cfg weightsBlobHash req) g.generatedTokens).finalize
        blake3 := by
  unfold issue at h
  obtain ⟨generated, t, htokens, h⟩ := eval_bind_eq_ok.mp h
  obtain ⟨⟨cert, id⟩, t', hfinish, h⟩ := eval_bind_eq_ok.mp h
  cases h
  obtain ⟨s₁, s₂⟩ := s
  rw [eval_onFst, Prod.mk.injEq] at htokens
  have hinner : tokens.eval s₁ = (.ok generated, t.1) :=
    eval_mapErr_ok.mp (Prod.ext htokens.1 (congrArg Prod.fst htokens.2))
  refine ⟨⟨_, hinner⟩, ?_⟩
  obtain ⟨t₁, t₂⟩ := t
  rw [eval_onSnd, Prod.mk.injEq] at hfinish
  have hsink := eval_mapErr_ok.mp (Prod.ext hfinish.1 rfl)
  unfold CertBuilder.finalizeWithSink at hsink
  obtain ⟨_, u, -, hsink⟩ := eval_bind_eq_ok.mp hsink
  obtain ⟨id', u, -, hsink⟩ := eval_bind_eq_ok.mp hsink
  cases hsink
  rfl

end Runs

/-- `g` is what a successful run of one of the certifying drivers returned for a request. -/
inductive Issued (blake3 : Blake3) (cfg : Config) (weightsBlobHash : Hash) (req : Request)
    (g : Generation) : Prop where
  | withSink {F σ ε : Type} [F32 F] (weights : Weights F) (sink : CertSink σ ε) (tier : UInt8)
      (certId : UInt64) (w w' : σ)
      (run : (runWithSink blake3 cfg weights weightsBlobHash req sink tier).eval w =
        (.ok (g, certId), w'))
  | withForward {F φ σ ε : Type} [F32 F] (forward : Forward φ F) (sink : CertSink σ ε) (tier : UInt8)
      (certId : UInt64) (s s' : φ × σ)
      (run : (runQuantizedWithForward blake3 cfg weightsBlobHash req sink tier forward).eval s =
        (.ok (g, certId), s'))
  | withPrefill {F φ σ ε : Type} [F32 F] (prefill : List UInt32 → Exec φ Error (Tensor F))
      (decode : Forward φ F) (sink : CertSink σ ε) (tier : UInt8) (certId : UInt64) (s s' : φ × σ)
      (run : (runQuantizedWithPrefill blake3 cfg weightsBlobHash req sink tier prefill decode).eval s =
        (.ok (g, certId), s'))

section Binding

variable {blake3 : Blake3} {cfg cfg' : Config} {weightsBlobHash weightsBlobHash' : Hash}
  {req req' : Request} {g g' : Generation}

/-- The receipt of a successful run, and the number of its tokens. -/
theorem Issued.cert_eq (h : Issued blake3 cfg weightsBlobHash req g) :
    g.generatedTokens.length = req.nNewTokens ∧
      g.cert = (bindOutputs blake3 (bindInputs blake3 cfg weightsBlobHash req) g.generatedTokens).finalize
        blake3 := by
  cases h with
  | @withSink F σ ε _ weights sink tier certId w w' run =>
    unfold runWithSink issueFresh at run
    obtain ⟨fresh, t, -, run⟩ := eval_bind_eq_ok.mp run
    rw [eval_withLocal, Prod.mk.injEq] at run
    obtain ⟨⟨t, htokens⟩, hcert⟩ := issue_eq_ok (Prod.ext run.1 rfl)
    exact ⟨(decoded_of_perTokenTokens htokens).1, hcert⟩
  | withForward forward sink tier certId s s' run =>
    obtain ⟨⟨t, htokens⟩, hcert⟩ := issue_eq_ok run
    exact ⟨(decoded_of_perTokenTokens htokens).1, hcert⟩
  | withPrefill prefill decode sink tier certId s s' run =>
    obtain ⟨⟨t, htokens⟩, hcert⟩ := issue_eq_ok run
    exact ⟨length_prefillTokens htokens, hcert⟩

/-- The byte strings that a run hashes: the architecture, the output tokens, and the receipt. -/
def hashedStrings (cfg : Config) (g : Generation) : Set (List UInt8) :=
  {(archString cfg).asBytes, u32SliceToLeBytes g.generatedTokens, preV2 g.cert.toSections}

/-- **A receipt determines its request.** If the hash function has no collision among the strings
that two successful runs hash, equal inputs and outputs of their receipts come from one request,
on one configuration and weights hash, and bind the same tokens. -/
theorem receipt_determines_request (h : Issued blake3 cfg weightsBlobHash req g)
    (h' : Issued blake3 cfg' weightsBlobHash' req' g')
    (hcollision : Set.InjOn blake3 (hashedStrings cfg g ∪ hashedStrings cfg' g'))
    (hinputs : g.cert.inputs = g'.cert.inputs) (houtputs : g.cert.outputs = g'.cert.outputs) :
    weightsBlobHash = weightsBlobHash' ∧ cfg = cfg' ∧ req = req' ∧
      g.generatedTokens = g'.generatedTokens := by
  obtain ⟨hcount, hcert⟩ := h.cert_eq
  obtain ⟨hcount', hcert'⟩ := h'.cert_eq
  rw [hcert, hcert'] at hinputs houtputs
  simp only [CertBuilder.finalize, bindOutputs, bindInputs, CertBuilder.declareInput,
    CertBuilder.declareOutput, CertBuilder.new, List.nil_append, List.cons_append, List.cons.injEq,
    CertField.mk.injEq, true_and, and_true] at hinputs houtputs
  obtain ⟨hmodel, hweights, harch, hprompt, -⟩ := hinputs
  have hgenerated := u32SliceToLeBytes_injective houtputs.1
  have hbytes : (archString cfg).asBytes = (archString cfg').asBytes :=
    hcollision (.inl (.inl rfl)) (.inr (.inl rfl)) (Vector.toList_inj.mp harch)
  have hnew : req.nNewTokens = req'.nNewTokens := by rw [← hcount, ← hcount', hgenerated]
  refine ⟨Vector.toList_inj.mp hweights, ?_, ?_, hgenerated⟩
  · exact archString_injective (String.asBytes_injective hbytes)
  · obtain ⟨modelId, promptTokens, nNewTokens⟩ := req
    obtain ⟨modelId', promptTokens', nNewTokens'⟩ := req'
    obtain rfl := String.asBytes_injective hmodel
    obtain rfl := u32SliceToLeBytes_injective hprompt
    obtain rfl : nNewTokens = nNewTokens' := hnew
    rfl

end Binding

def tinyRequest : Request :=
  ⟨"m", [1, 2], 2⟩

/-- What both drivers return on one logit. -/
def tinyGeneration : Generation :=
  ⟨[0, 0], (bindOutputs leadingBytes (bindInputs leadingBytes tinyConfig (leadingBytes []) tinyRequest)
    [0, 0]).finalize leadingBytes⟩

private theorem issued_forward :
    Issued leadingBytes tinyConfig (leadingBytes []) tinyRequest tinyGeneration :=
  .withForward (fun _ _ => (pure oneLogit : Exec Unit Error _)) nullSink 0 0 ((), ()) ((), ()) rfl

private theorem issued_prefill :
    Issued leadingBytes tinyConfig (leadingBytes []) tinyRequest tinyGeneration :=
  .withPrefill (feedPrompt fun _ _ => (pure oneLogit : Exec Unit Error _)) (fun _ _ => pure oneLogit)
    nullSink 0 0 ((), ()) ((), ()) rfl

/-- The strings that the run hashes start with different bytes. -/
private theorem injOn_tiny :
    Set.InjOn leadingBytes (hashedStrings tinyConfig tinyGeneration ∪ hashedStrings tinyConfig tinyGeneration) := by
  have hfirst : ∀ bytes : List UInt8, (leadingBytes bytes)[0] = bytes.getD 0 0 := fun bytes => by
    simp [leadingBytes]
  have harch : (archString tinyConfig).asBytes.getD 0 0 = 0x6C := by decide +kernel
  have htokens : (u32SliceToLeBytes tinyGeneration.generatedTokens).getD 0 0 = 0 := by decide +kernel
  have hreceipt : (preV2 tinyGeneration.cert.toSections).getD 0 0 = 0x76 := by decide +kernel
  rw [Set.union_self]
  intro a ha b hb heq
  have hsame := congrArg (fun hash => hash[0]) heq
  simp only [hfirst] at hsame
  rcases ha with rfl | rfl | rfl <;> rcases hb with rfl | rfl | rfl <;>
    first | rfl | (simp only [harch, htokens, hreceipt] at hsame; exact absurd hsame (by decide))

theorem receipt_determines_request_tiny :
    leadingBytes [] = leadingBytes [] ∧ tinyConfig = tinyConfig ∧ tinyRequest = tinyRequest ∧
      tinyGeneration.generatedTokens = tinyGeneration.generatedTokens :=
  receipt_determines_request issued_forward issued_prefill injOn_tiny rfl rfl

end VitniTensor
