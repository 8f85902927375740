import VitniTensor.Gguf.Safety

/-!
# Longer files

The parser looks at the length of a file to see whether a read stays inside, and to bound the
vector that it reserves for the tensor infos. Bytes appended to a file change the result of a
truncated one, and of no other unless that vector becomes too large.
-/

namespace VitniTensor

open Outcome Exec

/-- A read that the file is too short for. -/
def Stop.Truncated (stop : Stop Error) : Prop :=
  ∃ what, stop = .err (.truncated what)

/-- A vector that is refused. -/
def Stop.Refused (stop : Stop Error) : Prop :=
  stop = .panic .capacityOverflow

namespace Cursor

variable {α β : Type} {buf rest : List UInt8}

/-- Equal positions inside the shorter file. -/
def SamePos (buf : List UInt8) (c c' : Cursor) : Prop :=
  c.pos = c'.pos ∧ c.pos ≤ buf.length

/-- What `m` reads from the shorter file, `m'` reads from the longer one. -/
abbrev Extends (buf : List UInt8) (m m' : Parse α) : Prop :=
  SimUpTo Stop.Truncated Stop.Refused (SamePos buf) Eq m m'

theorem Extends.pure (a : α) : Extends buf (Pure.pure a) (Pure.pure a) :=
  SimUpTo.pure rfl

theorem Extends.lift (x : Res α) : Extends buf (Exec.lift x) (Exec.lift x) :=
  SimUpTo.lift (.refl x)

theorem Extends.bind {m m' : Parse α} {f f' : α → Parse β} (first : Extends buf m m')
    (next : ∀ a, Extends buf (f a) (f' a)) : Extends buf (m >>= f) (m' >>= f') := by
  refine SimUpTo.bind first fun a a' h => ?_
  subst h
  exact next a

/-- Work that is only counted leaves the position alone. -/
theorem Extends.work {f f' : Cursor → Cursor} (hf : ∀ c, (f c).pos = c.pos)
    (hf' : ∀ c, (f' c).pos = c.pos) : Extends buf (update f) (update f') := by
  intro c c' hpos
  refine ⟨.ok rfl, fun _ _ => ?_⟩
  simp only [eval_update, SamePos, hf, hf']
  exact hpos

/-- One vector for both. -/
theorem extends_reserve (r : Reservation) : Extends buf (reserve r) (reserve r) :=
  (Extends.work (fun _ => rfl) fun _ => rfl).bind fun _ => .lift _

private theorem slice_append {pos stop : Nat} (hstop : stop ≤ buf.length) :
    (slice (buf ++ rest) pos stop : Res (List UInt8)) = slice buf pos stop := by
  have hlonger : stop ≤ (buf ++ rest).length := by
    rw [List.length_append]
    omega
  by_cases hle : pos ≤ stop
  · rw [slice_of_le hle hlonger, slice_of_le hle hstop, List.drop_append_of_le_length (by omega),
      List.take_append_of_le_length]
    rw [List.length_drop]
    omega
  · unfold slice
    rw [if_neg fun h => hle h.1, if_neg fun h => hle h.1]

/-! ### Reads -/

theorem extends_readN (n : Nat) : Extends buf (readN buf n) (readN (buf ++ rest) n) := by
  rintro ⟨pos, work⟩ ⟨pos', work'⟩ ⟨hpos, hinside⟩
  dsimp only at hpos hinside
  subst hpos
  unfold readN
  rw [eval_bind_ok (eval_state _), eval_bind_ok (eval_state _)]
  dsimp only
  -- The sum overflows alike on both; past the shorter buffer, truncation is the one excuse.
  by_cases hfits : pos + n < wordSize
  · have hchecked : (okOr (checked (pos + n)) (Error.overflow "gguf: read past end (overflow)") : Res Nat) =
        .ok (pos + n) := okOr_checked_eq_ok.mpr ⟨hfits, rfl⟩
    rw [hchecked, lift_ok, pure_bind, pure_bind]
    by_cases hend : pos + n > buf.length
    · rw [if_pos hend]
      exact ⟨.lost ⟨_, rfl⟩ _, fun _ eq => nomatch eq⟩
    -- Inside the shorter buffer, the longer one has the same bytes.
    · have hstop : pos + n ≤ buf.length := Nat.le_of_not_lt hend
      have hlonger : ¬pos + n > (buf ++ rest).length := by
        rw [List.length_append]
        omega
      rw [if_neg hend, if_neg hlonger, slice_append hstop,
        slice_of_le (Nat.le_add_right pos n) hstop]
      exact ⟨.ok rfl, fun _ _ => ⟨rfl, hstop⟩⟩
  · have hchecked : (okOr (checked (pos + n)) (Error.overflow "gguf: read past end (overflow)") : Res Nat) =
        .error (.err (.overflow "gguf: read past end (overflow)")) := by
      unfold checked
      rw [if_neg hfits, okOr_none]
    rw [hchecked]
    exact ⟨.error _, fun _ eq => nomatch eq⟩

theorem extends_readU32 : Extends buf (readU32 buf) (readU32 (buf ++ rest)) :=
  (extends_readN 4).bind fun _ => (Extends.lift _).bind fun _ => .pure _

theorem extends_readU64 : Extends buf (readU64 buf) (readU64 (buf ++ rest)) :=
  (extends_readN 8).bind fun _ => (Extends.lift _).bind fun _ => .pure _

theorem extends_readU16 : Extends buf (readU16 buf) (readU16 (buf ++ rest)) :=
  (extends_readN 2).bind fun _ => (Extends.lift _).bind fun _ => .pure _

theorem extends_readByte : Extends buf (readByte buf) (readByte (buf ++ rest)) :=
  (extends_readN 1).bind fun _ => .lift _

theorem extends_readString : Extends buf (readString buf) (readString (buf ++ rest)) := by
  refine extends_readU64.bind fun n => ?_
  split
  next => exact SimUpTo.fail _
  next => exact (extends_readN n.toNat).bind fun _ => .lift _

/-! ### Arrays -/

/-- The body of the string loop after the length. -/
private theorem extends_skip {m m' : Parse α} (n : Nat) (next : Extends buf m m') :
    Extends buf (do
      let c ← state
      let pos ← lift (okOr (checked (c.pos + n)) (.overflow "gguf: array string overflow"))
      seek pos
      if pos > buf.length then fail (.truncated "gguf: array string past end") else m) (do
      let c ← state
      let pos ← lift (okOr (checked (c.pos + n)) (.overflow "gguf: array string overflow"))
      seek pos
      if pos > (buf ++ rest).length then fail (.truncated "gguf: array string past end") else m') := by
  rintro ⟨pos, work⟩ ⟨pos', work'⟩ ⟨hpos, hinside⟩
  dsimp only at hpos hinside
  subst hpos
  rw [eval_bind_ok (eval_state _), eval_bind_ok (eval_state _)]
  dsimp only
  cases hend : (okOr (checked (pos + n)) (Error.overflow "gguf: array string overflow") : Res Nat) with
  | error stop => exact ⟨.error stop, fun _ eq => nomatch eq⟩
  | ok «end» =>
    unfold seek
    rw [lift_ok, pure_bind, pure_bind, eval_bind_ok (eval_update _ _), eval_bind_ok (eval_update _ _)]
    -- The shorter buffer may end inside the string, the longer one only behind it.
    by_cases hpast : «end» > buf.length
    · rw [if_pos hpast]
      exact ⟨.lost ⟨_, rfl⟩ _, fun _ eq => nomatch eq⟩
    · have hlonger : ¬«end» > (buf ++ rest).length := by
        rw [List.length_append]
        omega
      rw [if_neg hpast, if_neg hlonger]
      exact next _ _ ⟨rfl, Nat.le_of_not_lt hpast⟩

theorem extends_skipStrings (len : Nat) :
    Extends buf (skipStrings buf len) (skipStrings (buf ++ rest) len) := by
  induction len with
  | zero => exact .pure ()
  | succ len ih =>
    refine Extends.bind (Extends.work (fun _ => rfl) fun _ => rfl) fun _ => ?_
    exact extends_readU64.bind fun n => extends_skip n.toNat ih

theorem extends_skipElems (elemType : GgufValueType) (len : UInt64) :
    Extends buf (skipElems buf elemType len) (skipElems (buf ++ rest) elemType len) := by
  refine (Extends.lift _).bind fun elemSize => (Extends.lift _).bind fun total => ?_
  rintro ⟨pos, work⟩ ⟨pos', work'⟩ ⟨hpos, hinside⟩
  dsimp only at hpos hinside
  subst hpos
  rw [eval_bind_ok (eval_state _), eval_bind_ok (eval_state _)]
  dsimp only
  cases hend : (okOr (checked (pos + total)) (Error.overflow "gguf: array end overflow") : Res Nat) with
  | error stop => exact ⟨.error stop, fun _ eq => nomatch eq⟩
  | ok «end» =>
    rw [lift_ok, pure_bind, pure_bind]
    -- The shorter buffer may end inside the elements.
    by_cases hpast : «end» > buf.length
    · rw [if_pos hpast]
      exact ⟨.lost ⟨_, rfl⟩ _, fun _ eq => nomatch eq⟩
    · have hlonger : ¬«end» > (buf ++ rest).length := by
        rw [List.length_append]
        omega
      rw [if_neg hpast, if_neg hlonger]
      exact ⟨.ok rfl, fun _ _ => ⟨rfl, Nat.le_of_not_lt hpast⟩⟩

/-- The packed bytes of an array that was skipped inside the shorter file. -/
private theorem extends_packed {m m' : Parse Unit} {f : List UInt8 → α} (skips : Extends buf m m') :
    Extends buf (do
      let start ← state
      m
      let stop ← state
      let data ← lift (slice buf start.pos stop.pos)
      pure (f data)) (do
      let start ← state
      m'
      let stop ← state
      let data ← lift (slice (buf ++ rest) start.pos stop.pos)
      pure (f data)) := by
  rintro ⟨pos, work⟩ ⟨pos', work'⟩ ⟨hpos, hinside⟩
  dsimp only at hpos hinside
  subst hpos
  obtain ⟨hsame, hafter⟩ := skips ⟨pos, work⟩ ⟨pos, work'⟩ ⟨rfl, hinside⟩
  rw [eval_bind_ok (eval_state _), eval_bind_ok (eval_state _), eval_bind, eval_bind]
  cases hrun : m.eval ⟨pos, work⟩ with
  | mk out c =>
    cases hrun' : m'.eval ⟨pos, work'⟩ with
    | mk out' c' =>
      rw [hrun, hrun'] at hsame hafter
      cases hsame with
      -- What the skipping did to both cursors carries over to the cut.
      | lost short => exact ⟨.lost short _, fun _ eq => nomatch eq⟩
      | beyond stop large => exact ⟨.beyond stop large, fun _ eq => nomatch eq⟩
      | error stop => exact ⟨.error stop, fun _ eq => nomatch eq⟩
      | ok same =>
        have hend := hafter _ rfl
        dsimp only at hend ⊢
        rw [eval_bind_ok (eval_state _), eval_bind_ok (eval_state _), ← hend.1, slice_append hend.2]
        exact ((Extends.lift _).bind fun data => Extends.pure (f data)) _ _ hend

theorem extends_readArray : Extends buf (readArray buf) (readArray (buf ++ rest)) := by
  refine extends_readU32.bind fun raw => (Extends.lift _).bind fun elemType => ?_
  split
  next => exact SimUpTo.fail _
  next =>
    refine extends_readU64.bind fun len => ?_
    split
    next => exact extends_packed (extends_skipStrings len.toNat)
    next => exact extends_packed (extends_skipElems elemType len)

theorem extends_readValue (ty : GgufValueType) :
    Extends buf (readValue buf ty) (readValue (buf ++ rest) ty) := by
  cases ty with
  | uint8 | int8 | bool => exact extends_readByte.bind fun _ => .pure _
  | uint16 | int16 => exact extends_readU16.bind fun _ => .pure _
  | uint32 | int32 | float32 => exact extends_readU32.bind fun _ => .pure _
  | uint64 | int64 | float64 => exact extends_readU64.bind fun _ => .pure _
  | string => exact extends_readString.bind fun _ => .pure _
  | array => exact extends_readArray.bind fun _ => .pure _

end Cursor

namespace GgufFile

open Cursor

variable {buf rest : List UInt8}

/-! ### What an info costs -/

/-- A value of `m` costs at least `n` bytes of the buffer. -/
def Costs (buf : List UInt8) {α : Type} (n : Nat) (m : Parse α) : Prop :=
  ∀ c a c', c.pos ≤ buf.length → m.eval c = (.ok a, c') → c.pos + n ≤ c'.pos ∧ c'.pos ≤ buf.length

section Costs

variable {α β : Type}

theorem Costs.pure (a : α) : Costs buf 0 (Pure.pure a) := by
  rintro c b c' hinside ⟨⟩
  exact ⟨Nat.le_refl _, hinside⟩

theorem Costs.lift (x : Res α) : Costs buf 0 (Exec.lift x) := by
  rintro c a c' hinside hrun
  rw [eval_lift, Prod.mk.injEq] at hrun
  rw [← hrun.2]
  exact ⟨Nat.le_refl _, hinside⟩

theorem Costs.fail (n : Nat) (e : Error) : Costs buf n (Exec.fail e : Parse α) := by
  rintro c a c' hinside ⟨⟩

theorem Costs.work {f : Cursor → Cursor} (hf : ∀ c, (f c).pos = c.pos) : Costs buf 0 (update f) := by
  rintro c a c' hinside ⟨⟩
  rw [hf]
  exact ⟨Nat.le_refl _, hinside⟩

theorem Costs.bind {n k : Nat} {m : Parse α} {f : α → Parse β} (first : Costs buf n m)
    (next : ∀ a, Costs buf k (f a)) : Costs buf (n + k) (m >>= f) := by
  intro c b c' hinside hrun
  obtain ⟨a, t, hfirst, hnext⟩ := eval_bind_eq_ok.mp hrun
  obtain ⟨hn, ht⟩ := first c a t hinside hfirst
  obtain ⟨hk, hc'⟩ := next a t b c' ht hnext
  exact ⟨by omega, hc'⟩

/-- What follows for free. -/
theorem Costs.after {n : Nat} {m : Parse α} {f : α → Parse β} (first : Costs buf n m)
    (next : ∀ a, Costs buf 0 (f a)) : Costs buf n (m >>= f) :=
  first.bind next

/-- What comes for free. -/
theorem Costs.skip {n : Nat} {m : Parse α} {f : α → Parse β} (first : Costs buf 0 m)
    (next : ∀ a, Costs buf n (f a)) : Costs buf n (m >>= f) := by
  have hboth := first.bind next
  rwa [Nat.zero_add] at hboth

theorem costs_readN (n : Nat) : Costs buf n (readN buf n) := by
  intro c bs c' hinside hrun
  have hspec := @readN_spec buf n c
  unfold wp at hspec
  rw [hrun] at hspec
  obtain ⟨-, hbound, rfl⟩ := hspec
  exact ⟨Nat.le_refl _, hbound⟩

theorem costs_readU32 : Costs buf 4 (readU32 buf) :=
  (costs_readN 4).after fun _ => (Costs.lift _).after fun _ => .pure _

theorem costs_readU64 : Costs buf 8 (readU64 buf) :=
  (costs_readN 8).after fun _ => (Costs.lift _).after fun _ => .pure _

theorem costs_readString : Costs buf 8 (readString buf) := by
  refine costs_readU64.bind (k := 0) fun n => ?_
  split
  next => exact .fail 0 _
  next =>
    intro c s c' hinside hrun
    have hrest := ((costs_readN n.toNat).after fun _ => Costs.lift _) c s c' hinside hrun
    exact ⟨by omega, hrest.2⟩

theorem costs_readDims (n : Nat) : Costs buf (8 * n) (readDims buf n) := by
  induction n with
  | zero => exact .pure []
  | succ n ih =>
    have hcount : Costs buf 0 countDim := .work fun _ => rfl
    refine hcount.skip fun _ => ?_
    have hrest := costs_readU64.bind (f := fun dim => readDims buf n >>= fun rest => pure (dim :: rest))
      fun dim => ih.after fun rest => .pure _
    rw [Nat.mul_succ, Nat.add_comm]
    exact hrest

theorem costs_reserve (r : Reservation) : Costs buf 0 (reserve r) := by
  have hnote : Costs buf 0 (update fun c => { c with work.reserved := r :: c.work.reserved }) := .work fun _ => rfl
  exact hnote.after fun _ => .lift _

theorem costs_readTensorInfo : Costs buf minTensorInfoBytes (readTensorInfo buf) := by
  refine costs_readString.bind (k := 16) fun name => ?_
  refine costs_readU32.bind (k := 12) fun nDims => ?_
  split
  next => exact .fail 12 _
  next =>
    refine (costs_reserve _).skip fun _ => ?_
    intro c info c' hinside hrun
    have hall := (costs_readDims nDims.toNat).bind (k := 12)
      (fun shape => costs_readU32.bind (k := 8) fun raw => costs_readU64.after fun offset => .pure _)
      c info c' hinside hrun
    exact ⟨by omega, hall.2⟩

theorem costs_readTensorInfos (count : Nat) :
    Costs buf (minTensorInfoBytes * count) (readTensorInfos buf count) := by
  induction count with
  | zero => exact .pure []
  | succ count ih =>
    have hcount : Costs buf 0 countTensorInfo := .work fun _ => rfl
    refine hcount.skip fun _ => ?_
    have hrest := costs_readTensorInfo.bind (f := fun info => readTensorInfos buf count >>= fun rest => pure (info :: rest))
      fun info => ih.after fun rest => .pure _
    rw [Nat.mul_succ, Nat.add_comm]
    exact hrest

end Costs

/-! ### The head of the file -/

theorem extends_readEntry : Extends buf (readEntry buf) (readEntry (buf ++ rest)) := by
  refine extends_readString.bind fun key => extends_readU32.bind fun raw => ?_
  exact (Extends.lift _).bind fun ty => (extends_readValue ty).bind fun value => .pure _

theorem extends_readMetadata (count : Nat) (metadata : BTreeMap GgufValue) :
    Extends buf (readMetadata buf count metadata) (readMetadata (buf ++ rest) count metadata) := by
  induction count generalizing metadata with
  | zero => exact .pure metadata
  | succ count ih =>
    refine Extends.bind (Extends.work (fun _ => rfl) fun _ => rfl) fun _ => ?_
    exact extends_readEntry.bind fun entry => ih _

theorem extends_readDims (n : Nat) : Extends buf (readDims buf n) (readDims (buf ++ rest) n) := by
  induction n with
  | zero => exact .pure []
  | succ n ih =>
    refine Extends.bind (Extends.work (fun _ => rfl) fun _ => rfl) fun _ => ?_
    exact extends_readU64.bind fun dim => ih.bind fun dims => .pure _

theorem extends_readTensorInfo : Extends buf (readTensorInfo buf) (readTensorInfo (buf ++ rest)) := by
  refine extends_readString.bind fun name => extends_readU32.bind fun nDims => ?_
  split
  next => exact SimUpTo.fail _
  next =>
    refine (extends_reserve _).bind fun _ => ?_
    refine (extends_readDims nDims.toNat).bind fun shape => extends_readU32.bind fun raw => ?_
    exact extends_readU64.bind fun offset => .pure _

theorem extends_readTensorInfos (count : Nat) :
    Extends buf (readTensorInfos buf count) (readTensorInfos (buf ++ rest) count) := by
  induction count with
  | zero => exact .pure []
  | succ count ih =>
    refine Extends.bind (Extends.work (fun _ => rfl) fun _ => rfl) fun _ => ?_
    exact extends_readTensorInfo.bind fun info => ih.bind fun infos => .pure _

/-- The vector reserved for the tensor infos depends on the length of the file; nothing else after
it does. Where the longer file asks for too much, the infos that the shorter one has room for are
fewer than its count. -/
private theorem extends_tensorInfos (small : (buf ++ rest).length < 2 ^ 63) (count : Nat) {β : Type}
    (f : List TensorInfo → β) :
    Extends buf (do
      let c ← state
      let remaining := buf.length - c.pos
      let most ← lift (word (remaining / minTensorInfoBytes + 1))
      reserve ⟨min count most, infoSize⟩
      let tensorInfos ← readTensorInfos buf count
      pure (f tensorInfos)) (do
      let c ← state
      let remaining := (buf ++ rest).length - c.pos
      let most ← lift (word (remaining / minTensorInfoBytes + 1))
      reserve ⟨min count most, infoSize⟩
      let tensorInfos ← readTensorInfos (buf ++ rest) count
      pure (f tensorInfos)) := by
  -- The quotient fits a word on either buffer.
  have hword : ∀ n, n ≤ (buf ++ rest).length → ∀ pos,
      (word ((n - pos) / minTensorInfoBytes + 1) : Res Nat) = .ok ((n - pos) / minTensorInfoBytes + 1) := by
    intro n hn pos
    have hquotient := Nat.div_le_self (n - pos) minTensorInfoBytes
    exact word_of_lt (by unfold wordSize; omega)
  have hlonger : buf.length ≤ (buf ++ rest).length := by
    rw [List.length_append]
    omega
  rintro c c' hpos
  rw [eval_bind_ok (eval_state c), eval_bind_ok (eval_state c')]
  dsimp only
  rw [hword buf.length hlonger, hword _ (Nat.le_refl _), lift_ok, lift_ok, pure_bind, pure_bind, ← hpos.1]
  -- More bytes left can only raise the bound of the reservation, never lower it.
  have hmost : (buf.length - c.pos) / minTensorInfoBytes ≤ ((buf ++ rest).length - c.pos) / minTensorInfoBytes :=
    Nat.div_le_div_right (Nat.sub_le_sub_right hlonger c.pos)
  have hinfos : Extends buf (readTensorInfos buf count >>= fun infos => pure (f infos))
      (readTensorInfos (buf ++ rest) count >>= fun infos => pure (f infos)) :=
    (extends_readTensorInfos count).bind fun infos => .pure _
  unfold reserve
  rw [bind_assoc, bind_assoc]
  -- Three cases: both requests are granted, only the shorter one's is, or neither.
  by_cases hfits' : min count (((buf ++ rest).length - c.pos) / minTensorInfoBytes + 1) * infoSize < 2 ^ 63
  · have hfits : min count ((buf.length - c.pos) / minTensorInfoBytes + 1) * infoSize < 2 ^ 63 := by
      unfold infoSize at hfits' ⊢
      omega
    have hnote : ∀ r r' : Reservation, Extends buf (update fun c => { c with work.reserved := r :: c.work.reserved })
        (update fun c => { c with work.reserved := r' :: c.work.reserved }) :=
      fun r r' => .work (fun _ => rfl) fun _ => rfl
    rw [withCapacity_of_lt hfits, withCapacity_of_lt hfits', lift_ok]
    exact ((hnote _ _).bind fun _ => hinfos) c c' hpos
  · rw [withCapacity_of_ge (Nat.le_of_not_lt hfits')]
    rw [eval_bind_ok (eval_update _ c), eval_bind_ok (eval_update _ c')]
    by_cases hfits : min count ((buf.length - c.pos) / minTensorInfoBytes + 1) * infoSize < 2 ^ 63
    -- Only the shorter one's: then it has too few bytes for the descriptions it declares.
    · have hroom : ∀ (s : Cursor) infos t, s.pos = c.pos →
          (readTensorInfos buf count >>= fun infos => pure (f infos)).eval s ≠ (.ok infos, t) := by
        intro s infos t hs hrun
        have hall : Costs buf (minTensorInfoBytes * count)
            (readTensorInfos buf count >>= fun infos => pure (f infos)) :=
          (costs_readTensorInfos count).after fun infos => .pure (f infos)
        have hcost := hall s infos t (by rw [hs]; exact hpos.2) hrun
        unfold minTensorInfoBytes infoSize at *
        omega
      rw [withCapacity_of_lt hfits, lift_ok, pure_bind]
      cases hrun : (readTensorInfos buf count >>= fun infos => pure (f infos) : Parse β).eval
          { c with work.reserved := ⟨min count ((buf.length - c.pos) / minTensorInfoBytes + 1), infoSize⟩ ::
            c.work.reserved } with
      | mk out t =>
        cases out with
        | error stop => exact ⟨.beyond stop rfl, fun _ eq => nomatch eq⟩
        | ok infos => exact absurd hrun (hroom _ infos t rfl)
    · rw [withCapacity_of_ge (Nat.le_of_not_lt hfits)]
      exact ⟨.error _, fun _ eq => nomatch eq⟩

theorem extends_readHead (small : (buf ++ rest).length < 2 ^ 63) :
    Extends buf (readHead buf) (readHead (buf ++ rest)) := by
  refine (extends_readN 4).bind fun found => ?_
  split
  next => exact SimUpTo.fail _
  next =>
    refine extends_readU32.bind fun version => ?_
    split
    next => exact SimUpTo.fail _
    next =>
      refine extends_readU64.bind fun tensorCount => extends_readU64.bind fun kvCount => ?_
      refine (extends_readMetadata kvCount.toNat ∅).bind fun metadata => ?_
      exact extends_tensorInfos small tensorCount.toNat fun infos => (version, metadata, infos)

/-! ### The tensors -/

theorem extends_sliceTensor (base : Nat) (info : TensorInfo) :
    UpTo Stop.Truncated Stop.Refused Eq (sliceTensor buf base info) (sliceTensor (buf ++ rest) base info) := by
  unfold sliceTensor
  -- Every check before the last one depends on the description alone.
  cases checkedNumel info.shape with
  | error stop => exact .error stop
  | ok numel =>
    rw [ok_bind, ok_bind]
    cases info.dtype.bytesForNumel numel with
    | error stop => exact .error stop
    | ok nbytes =>
      rw [ok_bind, ok_bind]
      cases (okOr (checked (base + info.offset.toNat))
          (Error.overflow "gguf: tensor offset overflow") : Res Nat) with
      | error stop => exact .error stop
      | ok start =>
        rw [ok_bind, ok_bind]
        cases (okOr (checked (start + nbytes)) (Error.overflow "gguf: tensor end overflow") : Res Nat) with
        | error stop => exact .error stop
        | ok «end» =>
          rw [ok_bind, ok_bind]
          by_cases hpast : «end» > buf.length
          · rw [if_pos hpast]
            exact .lost ⟨_, rfl⟩ _
          · have hlonger : ¬«end» > (buf ++ rest).length := by
              rw [List.length_append]
              omega
            rw [if_neg hpast, if_neg hlonger, slice_append (Nat.le_of_not_lt hpast)]
            exact .refl _

/-- The tensors are cut out at the positions that their infos say. -/
theorem extends_sliceTensors (base : Nat) (infos : List TensorInfo) (i : Nat) (byName : BTreeMap Nat) :
    SimUpTo Stop.Truncated Stop.Refused (fun _ _ => True) Eq (sliceTensors buf base i infos byName)
      (sliceTensors (buf ++ rest) base i infos byName) := by
  induction infos generalizing i byName with
  | nil => exact SimUpTo.pure rfl
  | cons info infos ih =>
    refine SimUpTo.bind (SimUpTo.update fun _ _ _ => trivial) fun _ _ _ => ?_
    refine SimUpTo.bind (SimUpTo.lift (extends_sliceTensor base info)) fun tensor tensor' htensor => ?_
    subst htensor
    refine SimUpTo.bind (ih (i + 1) _) fun out out' hout => ?_
    subst hout
    exact SimUpTo.pure rfl

/-- Aligned, the position may lie past the end of the shorter file, or of both. -/
theorem extends_placeTensors (version : UInt32) (metadata : BTreeMap GgufValue)
    (infos : List TensorInfo) {c c' : Cursor} (hpos : SamePos buf c c') :
    UpTo Stop.Truncated Stop.Refused Eq ((placeTensors buf version metadata infos).eval c).1
      ((placeTensors (buf ++ rest) version metadata infos).eval c').1 := by
  unfold placeTensors
  dsimp only
  split
  next => exact .error _
  next =>
    rw [eval_bind_ok (eval_state _), eval_bind_ok (eval_state _), ← hpos.1]
    cases alignUp c.pos (alignmentOf metadata) with
    | error stop => exact .error stop
    | ok aligned =>
      -- The cursor no longer matters once the tensors are placed by their offsets.
      have hany : ∀ f : Cursor → Cursor, SimUpTo Stop.Truncated Stop.Refused (fun _ _ => True) (fun _ _ => True)
          (update f : Parse Unit) (update f) := fun f => SimUpTo.update fun _ _ _ => trivial
      have hrest : SimUpTo Stop.Truncated Stop.Refused (fun _ _ => True) Eq
          (seek aligned >>= fun _ => reserve ⟨infos.length, tensorSize⟩ >>= fun _ => sliceTensors buf aligned 0 infos ∅ >>= fun out =>
            pure (⟨version, metadata, out.1, out.2⟩ : GgufFile))
          (seek aligned >>= fun _ => reserve ⟨infos.length, tensorSize⟩ >>= fun _ =>
            sliceTensors (buf ++ rest) aligned 0 infos ∅ >>= fun out =>
              pure (⟨version, metadata, out.1, out.2⟩ : GgufFile)) := by
        refine SimUpTo.bind (hany _) fun _ _ _ => ?_
        refine SimUpTo.bind (SimUpTo.bind (hany _) fun _ _ _ => SimUpTo.lift (.refl _)) fun _ _ _ => ?_
        refine SimUpTo.bind (extends_sliceTensors aligned infos 0 ∅) fun out out' hout => ?_
        subst hout
        exact SimUpTo.pure rfl
      exact (hrest c c' trivial).1

/-- The parser on a file and on a longer one. -/
theorem extends_parsed (small : (buf ++ rest).length < 2 ^ 63) :
    UpTo Stop.Truncated Stop.Refused Eq (parsed buf) (parsed (buf ++ rest)) := by
  obtain ⟨hhead, hpos⟩ := extends_readHead small Cursor.new Cursor.new ⟨rfl, Nat.zero_le _⟩
  unfold parsed parse
  rw [eval_bind, eval_bind]
  cases hrun : (readHead buf).eval Cursor.new with
  | mk out c =>
    cases hrun' : (readHead (buf ++ rest)).eval Cursor.new with
    | mk out' c' =>
      -- The heads are read alike, or the shorter one ran out, or the longer one was refused
      -- room.
      rw [hrun, hrun'] at hhead hpos
      cases hhead with
      | lost short => exact .lost short _
      | beyond stop large => exact .beyond stop large
      | error stop => exact .error stop
      | ok same =>
        subst same
        exact extends_placeTensors _ _ _ (hpos _ rfl)

/-- **Stability under extension.** A file that parses, parses to the same model with any bytes
after it. A malformed or overflowing one fails in the same way, or the longer file makes the parser
reserve more than the memory, which takes `2 ^ 61` bytes. A prefix of a model file is that model, or
is seen to be truncated. -/
theorem parse_append (b x : List UInt8) (small : (b ++ x).length < 2 ^ 63) :
    (∀ f, parsed b = .ok f → parsed (b ++ x) = .ok f) ∧
      (∀ e, parsed b = .error (.err e) → (∀ what, e ≠ .truncated what) →
        parsed (b ++ x) = .error (.err e) ∨
          parsed (b ++ x) = .error (.panic .capacityOverflow) ∧ 2 ^ 61 ≤ (b ++ x).length) ∧
      ∀ f, parsed (b ++ x) = .ok f →
        parsed b = .ok f ∨ ∃ what, parsed b = .error (.err (.truncated what)) := by
  have hboth := extends_parsed small
  have hfinished := parse_safe (b ++ x) small
  change Finished (b ++ x) (parsed (b ++ x)) _ at hfinished
  generalize parsed b = out at hboth
  generalize parsed (b ++ x) = out' at hboth hfinished
  -- The relation between the two outcomes has four cases; the claim's parts read off each.
  cases hboth with
  | ok same =>
    subst same
    exact ⟨fun f h => h, fun e h _ => (nomatch h), fun f h => .inl h⟩
  | lost short =>
    obtain ⟨what, rfl⟩ := short
    refine ⟨fun f h => (nomatch h), fun e h hother => ?_, fun f _ => .inr ⟨what, rfl⟩⟩
    cases h
    exact absurd rfl (hother what)
  -- A refused request leaves the buffer longer than 2 ^ 61 bytes.
  | beyond stop large =>
    cases large
    refine ⟨fun f h => (nomatch h), fun e _ _ => .inr ⟨rfl, ?_⟩, fun f h => (nomatch h)⟩
    exact (hfinished.refused (not_returns_panic _)).2
  | error stop =>
    exact ⟨fun f h => (nomatch h), fun e h _ => .inl h, fun f h => (nomatch h)⟩

/-- A header that announces as many tensors as there are numbers, and a name of `2 ^ 64 - 1` bytes. -/
def badName : List UInt8 :=
  header 3 18446744073709551615 ++ List.replicate 8 255

/-- The error of a short file, and the panic of the same file with `2 ^ 62` bytes more. -/
theorem parse_append_refused :
    ((parsed badName).stop? = some (.err (.malformed "gguf: string length > 1 MiB")) ∧
      (badName ++ List.replicate (2 ^ 62) 0).length < 2 ^ 63 ∧
      parsed (badName ++ List.replicate (2 ^ 62) 0) = .error (.panic .capacityOverflow)) ∧
    ¬∀ (b x : List UInt8) (e : Error), (b ++ x).length < 2 ^ 63 → (parsed b).stop? = some (.err e) →
      (∀ what, e ≠ .truncated what) → (parsed (b ++ x)).stop? = some (.err e) := by
  have count : (18446744073709551615 : UInt64).toNat = 18446744073709551615 := rfl
  have small : (badName ++ List.replicate (2 ^ 62) 0).length < 2 ^ 63 := by
    simp only [badName, List.length_append, length_header, List.length_replicate]
    omega
  have malformed : (parsed badName).stop? =
      some (.err (.malformed "gguf: string length > 1 MiB")) := by decide +kernel
  -- The declared count is cut by the bytes left, and 2 ^ 62 of them leave it far too large.
  have refused : parsed (badName ++ List.replicate (2 ^ 62) 0) = .error (.panic .capacityOverflow) := by
    rw [badName, List.append_assoc] at small ⊢
    refine parsed_refused (by decide) small ?_
    simp only [List.length_append, List.length_replicate, count]
    unfold minTensorInfoBytes infoSize
    omega
  refine ⟨⟨malformed, small, refused⟩, fun claim => ?_⟩
  have same := claim _ _ _ small malformed nofun
  rw [refused] at same
  exact absurd same (by simp [stop?])

/-- A model file with a byte too many. -/
theorem parse_append_sample : parsed (GgufFile.sample.write ++ [7]) = .ok (fileOf GgufFile.sample) :=
  (parse_append _ [7] (by decide +kernel)).1 _
    (parsed_write wellFormed_sample dimsFit_sample (by decide +kernel) (by decide))

end GgufFile

end VitniTensor
