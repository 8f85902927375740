import VitniTensor.Gguf.RoundTrip

/-!
# The parser is safe on every input

Every reading step pays for the iterations it counts with the bytes it consumes. A step
that stops leaves at most two iterations unpaid: the one it was in, and the one around it.
The work of a whole parse is then linear in the length of the file.
-/

namespace VitniTensor

open Outcome Exec

/-- All iterations executed. -/
def Work.total (w : Work) : Nat :=
  w.metadata + w.arrayStrings + w.tensorInfos + w.dims + w.tensors

namespace Cursor

variable {α β : Type} {buf : List UInt8}

/-- No vector asked for so far has more elements than the file has bytes, up to a constant. -/
def Modest (buf : List UInt8) (c : Cursor) : Prop :=
  ∀ r ∈ c.work.reserved, r.count ≤ buf.length + 8

/-- Every vector asked for so far was granted. -/
def Granted (c : Cursor) : Prop :=
  ∀ r ∈ c.work.reserved, r.count * r.size < 2 ^ 63

structure Sound (buf : List UInt8) (c : Cursor) : Prop where
  modest : Modest buf c
  granted : Granted c

/-- Another position, the same requests. -/
theorem Sound.moved {buf : List UInt8} {c : Cursor} (sound : Sound buf c) (pos : Nat) :
    Sound buf { c with pos := pos } :=
  ⟨sound.modest, sound.granted⟩

/-- How a step may stop in `c`: with an error, or at a vector that is refused, which takes a huge
file. -/
inductive Excused (buf : List UInt8) (stop : Stop Error) (c : Cursor) : Prop where
  | err (e : Error) (eq : stop = .err e) (granted : Granted c)
  | refused (eq : stop = .panic .capacityOverflow) (r : Reservation) (asked : r ∈ c.work.reserved)
      (large : 2 ^ 63 ≤ r.count * r.size) (huge : 2 ^ 61 ≤ buf.length)

/-- A step that started in `c` stopped in `c'`, at most `debt` iterations ahead of the bytes left
in the file. -/
structure Stopped (buf : List UInt8) (debt : Nat) (c : Cursor) (stop : Stop Error) (c' : Cursor) :
    Prop where
  excused : Excused buf stop c'
  work : c'.work.total + c.pos ≤ c.work.total + buf.length + debt
  modest : Modest buf c'

/-- A step from `c` arrived in `c'`, `gain` bytes ahead of its iterations. -/
structure Arrived (buf : List UInt8) (gain : Nat) (c c' : Cursor) : Prop where
  forward : c.pos ≤ c'.pos
  inside : c'.pos ≤ buf.length
  work : c'.work.total + c.pos + gain ≤ c.work.total + c'.pos
  sound : Sound buf c'

theorem Stopped.of_error {buf : List UInt8} {debt : Nat} {c c' : Cursor} {stop : Stop Error}
    (graceful : ∃ e, stop = .err e) (work : c'.work.total + c.pos ≤ c.work.total + buf.length + debt)
    (sound : Sound buf c') : Stopped buf debt c stop c' := by
  obtain ⟨e, eq⟩ := graceful
  exact ⟨.err e eq sound.granted, work, sound.modest⟩

/-- Started inside the buffer, `m` returns `a` with a gain of `gain a` or stops with an error. -/
def Reads (buf : List UInt8) (gain : α → Nat) (debt : Nat) (m : Parse α) : Prop :=
  ∀ c, c.pos ≤ buf.length → Sound buf c →
    wp m (fun a c' => Arrived buf (gain a) c c') (fun stop c' => Stopped buf debt c stop c') c

theorem Reads.mono {gain g : α → Nat} {debt debt' : Nat} {m : Parse α}
    (h : Reads buf gain debt m) (less : ∀ a, g a ≤ gain a) (more : debt ≤ debt') :
    Reads buf g debt' m := by
  intro c inside sound
  refine wp_mono (h c inside sound) (fun a c' arrived => ?_) (fun stop c' stopped => ?_)
  · have work := arrived.work
    have gains := less a
    exact ⟨arrived.forward, arrived.inside, by omega, arrived.sound⟩
  · have work := stopped.work
    exact ⟨stopped.excused, by omega, stopped.modest⟩

theorem Reads.pure (a : α) (debt : Nat) : Reads buf (fun _ => 0) debt (Pure.pure a) := by
  intro c inside sound
  exact ⟨Nat.le_refl _, inside, by dsimp only; omega, sound⟩

theorem Reads.fail (e : Error) (gain : α → Nat) (debt : Nat) :
    Reads buf gain debt (Exec.fail e) := by
  intro c inside sound
  exact .of_error ⟨e, rfl⟩ (by omega) sound

/-- A conversion that never panics. -/
theorem Reads.lift {x : Res α} (returns : x.Returns) (debt : Nat) :
    Reads buf (fun _ => 0) debt (Exec.lift x) := by
  intro c inside sound
  refine wp_lift (fun a eq => ⟨Nat.le_refl _, inside, by dsimp only; omega, sound⟩)
    (fun stop eq => ?_)
  exact .of_error (returns.err_of_error eq) (by omega) sound

/-- The gains of two steps add up. -/
theorem Reads.bind {gain : α → Nat} {g : β → Nat} {debt : Nat} {m : Parse α}
    {f : α → Parse β} (first : Reads buf gain debt m) (rest : ∀ a, Reads buf g debt (f a))
    {k : Nat} (atLeast : ∀ a, k ≤ gain a) :
    Reads buf (fun b => k + g b) debt (m >>= f) := by
  intro c inside sound
  rw [wp_bind]
  -- What the first part gains pays for the units of work the second one still owes.
  refine wp_mono (first c inside sound) (fun a c' arrived => ?_) (fun stop c' stopped => stopped)
  have gains := atLeast a
  have work := arrived.work
  refine wp_mono (rest a c' arrived.inside arrived.sound) (fun b c'' arrived' => ?_)
    (fun stop c'' stopped => ?_)
  · have work' := arrived'.work
    exact ⟨Nat.le_trans arrived.forward arrived'.forward, arrived'.inside, by dsimp only; omega,
      arrived'.sound⟩
  · have work' := stopped.work
    exact ⟨stopped.excused, by omega, stopped.modest⟩

/-- A step that gains nothing in front. -/
theorem Reads.after {gain : α → Nat} {gain' : β → Nat} {debt : Nat} {m : Parse α}
    {f : α → Parse β} (first : Reads buf gain debt m) (rest : ∀ a, Reads buf gain' debt (f a)) :
    Reads buf gain' debt (m >>= f) := by
  have both := first.bind rest (fun a => Nat.zero_le _)
  exact both.mono (fun b => by omega) (Nat.le_refl _)

/-- Returning something made of the value read. -/
theorem Reads.map {gain : α → Nat} {gain' : β → Nat} {debt : Nat} {m : Parse α} (h : Reads buf gain debt m)
    (f : α → β) (less : ∀ a, gain' (f a) ≤ gain a) :
    Reads buf gain' debt (m >>= fun a => Pure.pure (f a)) := by
  intro c inside sound
  rw [wp_bind]
  refine wp_mono (h c inside sound) (fun a c' arrived => ?_) (fun stop c' stopped => stopped)
  have work := arrived.work
  have gains := less a
  exact ⟨arrived.forward, arrived.inside, by omega, arrived.sound⟩

/-- A counted iteration is paid by one byte that its body consumes, or left as debt. -/
theorem Reads.counted {count : Parse Unit} {gain : α → Nat} {debt : Nat} {m : Parse α}
    (counts : ∀ c, ∃ c', count.eval c = (.ok (), c') ∧ c'.pos = c.pos ∧
      c'.work.total = c.work.total + 1 ∧ c'.work.reserved = c.work.reserved)
    (body : Reads buf (fun a => gain a + 1) debt m) :
    Reads buf gain (debt + 1) (count >>= fun _ => m) := by
  intro c inside sound
  obtain ⟨c', run, pos, total, reserved⟩ := counts c
  -- Counting touches neither the position nor the reservations.
  have sound' : Sound buf c' := by
    constructor
    · unfold Modest
      rw [reserved]
      exact sound.modest
    · unfold Granted
      rw [reserved]
      exact sound.granted
  unfold wp
  rw [eval_bind_ok run]
  refine wp_mono (body c' (by omega) sound') (fun a c'' arrived => ?_) (fun stop c'' stopped => ?_)
  · have work := arrived.work
    have forward := arrived.forward
    dsimp only at work
    exact ⟨by omega, arrived.inside, by omega, arrived.sound⟩
  · have work := stopped.work
    exact ⟨stopped.excused, by omega, stopped.modest⟩

theorem counts_metadata (c : Cursor) : ∃ c', countMetadata.eval c = (.ok (), c') ∧
    c'.pos = c.pos ∧ c'.work.total = c.work.total + 1 ∧ c'.work.reserved = c.work.reserved :=
  ⟨_, rfl, rfl, by simp only [Work.total]; omega, rfl⟩

theorem counts_arrayString (c : Cursor) : ∃ c', countArrayString.eval c = (.ok (), c') ∧
    c'.pos = c.pos ∧ c'.work.total = c.work.total + 1 ∧ c'.work.reserved = c.work.reserved :=
  ⟨_, rfl, rfl, by simp only [Work.total]; omega, rfl⟩

theorem counts_tensorInfo (c : Cursor) : ∃ c', countTensorInfo.eval c = (.ok (), c') ∧
    c'.pos = c.pos ∧ c'.work.total = c.work.total + 1 ∧ c'.work.reserved = c.work.reserved :=
  ⟨_, rfl, rfl, by simp only [Work.total]; omega, rfl⟩

theorem counts_dim (c : Cursor) : ∃ c', countDim.eval c = (.ok (), c') ∧
    c'.pos = c.pos ∧ c'.work.total = c.work.total + 1 ∧ c'.work.reserved = c.work.reserved :=
  ⟨_, rfl, rfl, by simp only [Work.total]; omega, rfl⟩

theorem counts_tensor (c : Cursor) : ∃ c', countTensor.eval c = (.ok (), c') ∧
    c'.pos = c.pos ∧ c'.work.total = c.work.total + 1 ∧ c'.work.reserved = c.work.reserved :=
  ⟨_, rfl, rfl, by simp only [Work.total]; omega, rfl⟩

/-! ### Reading -/

/-- What `read_n` does, with its two ways to fail. -/
theorem readN_spec (n : Nat) (c : Cursor) :
    wp (readN buf n)
      (fun bs c' => bs.length = n ∧ c.pos + n ≤ buf.length ∧ c' = { c with pos := c.pos + n })
      (fun stop c' => (∃ e, stop = .err e) ∧ c' = c) c := by
  unfold readN
  simp only [wp_bind, wp_state]
  -- `try_into` of the sum: a position past the word is an error, not a wrap.
  by_cases fits : c.pos + n < wordSize
  · simp only [checked, fits, if_true, okOr_some, wp_lift_ok]
    by_cases past : c.pos + n > buf.length
    · simp only [past, if_true, wp_fail]
      exact ⟨⟨_, rfl⟩, trivial⟩
    · have bound : c.pos + n ≤ buf.length := Nat.le_of_not_lt past
      have bytes := slice_of_le (ε := Error) (Nat.le_add_right c.pos n) bound
      simp only [past, if_false, bytes, wp_bind, wp_lift_ok, seek, wp_update, wp_pure]
      exact ⟨length_of_slice (ε := Error) bytes |>.trans (by omega), bound, trivial⟩
  · simp only [checked, fits, if_false, okOr_none]
    exact ⟨⟨_, rfl⟩, rfl⟩

/-- Reading a fixed number of bytes and converting them. -/
theorem reads_convert {n debt : Nat} {f : List UInt8 → Parse α}
    (converts : ∀ bs : List UInt8, bs.length = n → ∃ a, f bs = Pure.pure a) :
    Reads buf (fun _ => n) debt (readN buf n >>= f) := by
  intro c inside sound
  rw [wp_bind]
  refine wp_mono (readN_spec n c) ?_ ?_
  · rintro bs c' ⟨len, bound, rfl⟩
    obtain ⟨a, eq⟩ := converts bs len
    rw [eq, wp_pure]
    exact ⟨Nat.le_add_right _ _, bound, by simp only; omega, sound.moved _⟩
  · rintro stop c' ⟨graceful, rfl⟩
    exact .of_error graceful (by omega) sound

private theorem fromLeBytes_of_length {n : Nat} {bs : List UInt8} (len : bs.length = n) :
    fromLeBytes n bs = .ok (LittleEndian.ofBytes bs) := by
  have all : slice (ε := Error) bs 0 n = .ok bs := by
    rw [slice_of_le (Nat.zero_le n) (Nat.le_of_eq len.symm)]
    simp [← len]
  simp only [fromLeBytes, all, ok_bind]
  rfl

theorem reads_readU64 (debt : Nat) : Reads buf (fun _ => 8) debt (readU64 buf) :=
  reads_convert fun bs len =>
    ⟨_, by rw [fromLeBytes_of_length len, lift_ok, pure_bind]⟩

theorem reads_readU32 (debt : Nat) : Reads buf (fun _ => 4) debt (readU32 buf) :=
  reads_convert fun bs len =>
    ⟨_, by rw [fromLeBytes_of_length len, lift_ok, pure_bind]⟩

theorem reads_readU16 (debt : Nat) : Reads buf (fun _ => 2) debt (readU16 buf) :=
  reads_convert fun bs len =>
    ⟨_, by rw [fromLeBytes_of_length len, lift_ok, pure_bind]⟩

theorem reads_readByte (debt : Nat) : Reads buf (fun _ => 1) debt (readByte buf) :=
  reads_convert fun bs len =>
    ⟨_, by rw [index_of_lt (by omega : 0 < bs.length), lift_ok]⟩

theorem reads_readN (n debt : Nat) : Reads buf (fun _ => n) debt (readN buf n) := by
  have bytes : Reads buf (fun _ => n) debt (readN buf n >>= Pure.pure) :=
    reads_convert fun bs _ => ⟨bs, rfl⟩
  rwa [bind_pure] at bytes

theorem reads_readString (debt : Nat) : Reads buf (fun _ => 8) debt (readString buf) := by
  refine (reads_readU64 debt).bind (g := fun _ => 0) (fun n => ?_) (fun _ => Nat.le_refl _)
  split
  next long => exact Reads.fail _ _ _
  next short => exact (reads_readN n.toNat debt).after fun bytes => Reads.lift returns_okOr debt

/-- The body of the string loop after the length: the contents are skipped. -/
private theorem reads_skip {gain : α → Nat} {debt : Nat} {m : Parse α} (n : Nat)
    (rest : Reads buf gain debt m) : Reads buf gain debt (do
      let c ← state
      let pos ← lift (okOr (checked (c.pos + n)) (.overflow "gguf: array string overflow"))
      seek pos
      if pos > buf.length then fail (.truncated "gguf: array string past end") else m) := by
  intro c inside sound
  simp only [wp_bind, wp_state]
  refine wp_lift (fun pos eq => ?_) (fun stop eq => ?_)
  -- The cursor moves before the comparison; past the end, the error leaves it there.
  · have value : c.pos + n = pos := (okOr_checked_eq_ok.mp eq).2
    simp only [seek]
    split
    next past => exact .of_error ⟨_, rfl⟩ (by dsimp only; omega) (sound.moved pos)
    next bound =>
      refine wp_mono (rest { c with pos := pos } (Nat.le_of_not_lt bound) (sound.moved pos))
        (fun a c' arrived => ?_) (fun stop c' stopped => ?_)
      · have work := arrived.work
        have forward := arrived.forward
        dsimp only at work forward
        exact ⟨by omega, arrived.inside, by omega, arrived.sound⟩
      · have work := stopped.work
        dsimp only at work
        exact ⟨stopped.excused, by omega, stopped.modest⟩
  · exact .of_error (returns_okOr.err_of_error eq) (by omega) sound

/-- The strings of an array: each one is counted, and pays with its length prefix. -/
theorem reads_skipStrings (debt len : Nat) :
    Reads buf (fun _ => 0) (debt + 1) (skipStrings buf len) := by
  induction len with
  | zero => exact Reads.pure () _
  | succ len ih =>
    have head : Reads buf (fun _ => 7) (debt + 1) (countArrayString >>= fun _ => readU64 buf) :=
      Reads.counted counts_arrayString (reads_readU64 debt)
    have loop := head.after fun n => reads_skip n.toNat ih
    simp only [skipStrings]
    rwa [bind_assoc] at loop

theorem reads_skipElems (elemType : GgufValueType) (len : UInt64) (debt : Nat) :
    Reads buf (fun _ => 0) debt (skipElems buf elemType len) := by
  refine (Reads.lift returns_okOr debt).after fun elemSize => ?_
  refine (Reads.lift returns_okOr debt).after fun total => ?_
  intro c inside sound
  simp only [wp_bind, wp_state]
  refine wp_lift (fun pos eq => ?_) (fun stop eq => ?_)
  · have value : c.pos + total = pos := (okOr_checked_eq_ok.mp eq).2
    split
    next past => exact .of_error ⟨_, rfl⟩ (by omega) sound
    next bound => exact ⟨by dsimp only; omega, Nat.le_of_not_lt bound, by dsimp only; omega, sound.moved pos⟩
  · exact .of_error (returns_okOr.err_of_error eq) (by omega) sound

/-- The packed bytes of an array lie between the positions before and after the skip. -/
private theorem reads_packed {debt : Nat} {m : Parse Unit} {f : List UInt8 → Parse α}
    (skips : Reads buf (fun _ => 0) debt m) (rest : ∀ data, Reads buf (fun _ => 0) debt (f data)) :
    Reads buf (fun _ => 0) debt (do
      let start ← state
      m
      let stop ← state
      let data ← lift (slice buf start.pos stop.pos)
      f data) := by
  intro c inside sound
  simp only [wp_bind, wp_state]
  -- `m` only moves forward inside the buffer, so cutting out what it skipped cannot stop.
  refine wp_mono (skips c inside sound) (fun _ c' arrived => ?_) (fun stop c' stopped => stopped)
  have work := arrived.work
  simp only [wp_bind, wp_state]
  rw [slice_of_le arrived.forward arrived.inside, wp_lift_ok]
  refine wp_mono (rest _ c' arrived.inside arrived.sound) (fun a c'' arrived' => ?_)
    (fun stop c'' stopped => ?_)
  · have work' := arrived'.work
    exact ⟨Nat.le_trans arrived.forward arrived'.forward, arrived'.inside, by dsimp only at *; omega,
      arrived'.sound⟩
  · have work' := stopped.work
    exact ⟨stopped.excused, by dsimp only at *; omega, stopped.modest⟩

theorem reads_readArray (debt : Nat) : Reads buf (fun _ => 1) (debt + 1) (readArray buf) := by
  refine ((reads_readU32 (debt + 1)).bind (g := fun _ => 0) (fun raw => ?_)
    (fun _ => Nat.le_refl _)).mono (fun _ => by omega) (Nat.le_refl _)
  refine (Reads.lift returns_okOr _).after fun elemType => ?_
  split
  next nested => exact Reads.fail _ _ _
  next primitive =>
    refine ((reads_readU64 (debt + 1)).mono (g := fun _ => 0) (fun _ => by omega)
      (Nat.le_refl _)).after fun len => ?_
    split
    next strings => exact reads_packed (reads_skipStrings debt len.toNat) fun data => Reads.pure _ _
    next fixed => exact reads_packed (reads_skipElems elemType len _) fun data => Reads.pure _ _

/-- One value: at least one byte, whatever its type. -/
theorem reads_readValue (ty : GgufValueType) (debt : Nat) :
    Reads buf (fun _ => 0) (debt + 1) (readValue buf ty) := by
  have byte {f : UInt8 → GgufValue} : Reads buf (fun _ => 0) (debt + 1)
      (do let b ← readByte buf; pure (f b)) :=
    (reads_readByte _).after fun _ => Reads.pure _ _
  have word16 {f : UInt16 → GgufValue} : Reads buf (fun _ => 0) (debt + 1)
      (do let v ← readU16 buf; pure (f v)) :=
    (reads_readU16 _).after fun _ => Reads.pure _ _
  have word32 {f : UInt32 → GgufValue} : Reads buf (fun _ => 0) (debt + 1)
      (do let v ← readU32 buf; pure (f v)) :=
    (reads_readU32 _).after fun _ => Reads.pure _ _
  have word64 {f : UInt64 → GgufValue} : Reads buf (fun _ => 0) (debt + 1)
      (do let v ← readU64 buf; pure (f v)) :=
    (reads_readU64 _).after fun _ => Reads.pure _ _
  -- One case per width: a value is a byte, a word of two, four or eight bytes, or has a length.
  cases ty with
  | uint8 | int8 | bool => exact byte
  | uint16 | int16 => exact word16
  | uint32 | int32 | float32 => exact word32
  | uint64 | int64 | float64 => exact word64
  | string => exact (reads_readString _).after fun _ => Reads.pure _ _
  | array => exact (reads_readArray debt).after fun _ => Reads.pure _ _

end Cursor

namespace GgufFile

open Cursor

variable {buf : List UInt8}

theorem reads_readEntry (debt : Nat) : Reads buf (fun _ => 8) (debt + 1) (readEntry buf) := by
  refine (reads_readString (debt + 1)).bind (g := fun _ => 0) (fun key => ?_)
    (fun _ => Nat.le_refl _)
  refine (reads_readU32 _).after fun raw => ?_
  refine (Reads.lift returns_okOr _).after fun valueType => ?_
  exact (reads_readValue valueType debt).after fun value => Reads.pure _ _

theorem reads_readMetadata (count : Nat) :
    ∀ metadata, Reads buf (fun _ => 0) 2 (readMetadata buf count metadata) := by
  induction count with
  | zero => exact fun metadata => Reads.pure _ _
  | succ count ih =>
    intro metadata
    have head : Reads buf (fun _ => 7) 2 (countMetadata >>= fun _ => readEntry buf) :=
      Reads.counted counts_metadata (reads_readEntry 0)
    have loop := head.after fun entry => ih (metadata.insert entry.1 entry.2)
    simp only [readMetadata]
    rwa [bind_assoc] at loop

theorem reads_readDims (debt n : Nat) : Reads buf (fun _ => 0) (debt + 1) (readDims buf n) := by
  induction n with
  | zero => exact Reads.pure _ _
  | succ n ih =>
    have head : Reads buf (fun _ => 7) (debt + 1) (countDim >>= fun _ => readU64 buf) :=
      Reads.counted counts_dim (reads_readU64 debt)
    have loop := head.after fun dim => ih.after fun rest => Reads.pure (dim :: rest) _
    simp only [readDims]
    rwa [bind_assoc] at loop

/-- A vector within the bound is granted, or refused in a huge file. -/
theorem wp_reserve (r : Reservation) (small : r.count ≤ buf.length + 8)
    (huge : 2 ^ 63 ≤ r.count * r.size → 2 ^ 61 ≤ buf.length) {c : Cursor} (sound : Sound buf c) :
    wp (reserve r) (fun _ c' => c'.pos = c.pos ∧ c'.work.total = c.work.total ∧ Sound buf c')
      (fun stop c' => Excused buf stop c' ∧ c'.work.total = c.work.total ∧ Modest buf c') c := by
  -- The request is recorded before it is made, so it is modest also where it is refused.
  have modest : Modest buf { c with work.reserved := r :: c.work.reserved } := by
    intro r' mem
    rcases List.mem_cons.mp mem with rfl | old
    · exact small
    · exact sound.modest r' old
  unfold reserve
  rw [wp_bind, wp_update]
  by_cases fits : r.count * r.size < 2 ^ 63
  · rw [withCapacity_of_lt fits, wp_lift_ok]
    have granted : Granted { c with work.reserved := r :: c.work.reserved } := by
      intro r' mem
      rcases List.mem_cons.mp mem with rfl | old
      · exact fits
      · exact sound.granted r' old
    exact ⟨rfl, rfl, modest, granted⟩
  -- A refused request needs a buffer of 2 ^ 61 bytes, which `huge` turns into the excuse.
  · have large := Nat.le_of_not_lt fits
    rw [withCapacity_of_ge large]
    exact ⟨.refused rfl r List.mem_cons_self large (huge large), rfl, modest⟩

theorem reads_reserve (r : Reservation) (small : r.count ≤ buf.length + 8)
    (huge : 2 ^ 63 ≤ r.count * r.size → 2 ^ 61 ≤ buf.length) (debt : Nat) :
    Reads buf (fun _ => 0) debt (reserve r) := by
  intro c inside sound
  refine wp_mono (wp_reserve r small huge sound) ?_ ?_
  · rintro _ c' ⟨pos, work, sound'⟩
    exact ⟨by omega, by omega, by dsimp only; omega, sound'⟩
  · rintro stop c' ⟨excused, work, modest⟩
    exact ⟨excused, by omega, modest⟩

/-- No tensor info is shorter than `minTensorInfoBytes`. -/
theorem reads_readTensorInfo (debt : Nat) :
    Reads buf (fun _ => 24) (debt + 1) (readTensorInfo buf) := by
  refine (reads_readString (debt + 1)).bind (g := fun _ => 16) (fun name => ?_)
    (fun _ => Nat.le_refl _)
  refine (reads_readU32 _).bind (g := fun _ => 12) (fun nDims => ?_) (fun _ => Nat.le_refl _)
  split
  next tooMany => exact Reads.fail _ _ _
  next few =>
    refine (reads_reserve _ (by dsimp only; omega) (by dsimp only; omega) _).after fun _ => ?_
    refine (reads_readDims debt _).after fun shape => ?_
    refine (reads_readU32 _).bind (g := fun _ => 8) (fun raw => ?_) (fun _ => Nat.le_refl _)
    exact (reads_readU64 _).map _ (fun offset => Nat.le_refl _)

/-- The infos read are also bounded by the bytes consumed. -/
theorem reads_readTensorInfos (count : Nat) :
    Reads buf (fun infos => 23 * infos.length) 2 (readTensorInfos buf count) := by
  induction count with
  | zero => exact fun c inside sound => ⟨Nat.le_refl _, inside, by simp, sound⟩
  | succ count ih =>
    -- Every description read moves the cursor by at least 23 bytes, counted as gain.
    have head : Reads buf (fun _ => 23) 2 (countTensorInfo >>= fun _ => readTensorInfo buf) :=
      Reads.counted counts_tensorInfo (reads_readTensorInfo 0)
    have rest : ∀ info, Reads buf (fun infos => 23 * (infos.length - 1)) 2
        (readTensorInfos buf count >>= fun infos => pure (info :: infos)) :=
      fun info => ih.map (fun infos => info :: infos) (fun infos => by simp)
    have loop := head.bind rest (k := 23) (fun _ => Nat.le_refl _)
    simp only [readTensorInfos]
    rw [bind_assoc] at loop
    exact loop.mono (fun infos => by omega) (Nat.le_refl _)

/-! ### The rest of the file -/

theorem returns_checkedNumel (shape : List UInt64) : (checkedNumel shape).Returns := by
  have fold : ∀ (shape : List UInt64) (numel : Nat), (shape.foldlM
      (fun numel dim => okOr (checked (numel * dim.toNat))
        (Error.overflow "gguf: shape product overflows u64")) numel : Res Nat).Returns := by
    intro shape
    induction shape with
    | nil => intro numel; exact returns_ok numel
    | cons dim shape ih =>
      intro numel
      rw [List.foldlM_cons]
      exact returns_okOr.bind fun product _ => ih product
  exact fold shape 1

theorem returns_bytesForNumel (ty : GgufTensorType) (numel : Nat) :
    (ty.bytesForNumel numel).Returns := by
  have block : ∀ per size unaligned overflow,
      (GgufTensorType.blockBytes numel per size unaligned overflow).Returns := by
    intro per size unaligned overflow
    unfold GgufTensorType.blockBytes
    split
    next => exact returns_err _
    next => exact returns_okOr
  cases ty with
  | f32 | f16 => exact returns_okOr
  | other raw => exact returns_err _
  | _ => exact block _ _ _ _

/-- The range is checked against the end of the file before the slice is taken. -/
theorem returns_sliceTensor (base : Nat) (info : TensorInfo) :
    (sliceTensor buf base info).Returns := by
  refine (returns_checkedNumel _).bind fun numel _ => ?_
  refine (returns_bytesForNumel _ numel).bind fun nbytes _ => ?_
  refine returns_okOr.bind fun start _ => ?_
  refine returns_okOr.bind fun stop eq => ?_
  have value : start + nbytes = stop := (okOr_checked_eq_ok.mp eq).2
  split
  next past => exact returns_err _
  next bound =>
    rw [slice_of_le (by omega) (Nat.le_of_not_lt bound)]
    exact returns_ok _

theorem returns_alignUp {pos alignment : Nat} (nonzero : alignment ≠ 0) :
    (alignUp pos alignment).Returns := by
  unfold alignUp divCeil
  rw [if_neg nonzero]
  exact (returns_ok _).bind fun units _ => returns_okOr

/-- One iteration per tensor info, and nothing reserved. -/
theorem wp_sliceTensors (base : Nat) (infos : List TensorInfo) :
    ∀ (i : Nat) (byName : BTreeMap Nat) (c : Cursor),
      wp (sliceTensors buf base i infos byName)
        (fun _ c' => c'.work.total ≤ c.work.total + infos.length ∧
          c'.work.reserved = c.work.reserved)
        (fun stop c' => (∃ e, stop = .err e) ∧ c'.work.total ≤ c.work.total + infos.length ∧
          c'.work.reserved = c.work.reserved) c := by
  induction infos with
  | nil => exact fun i byName c => ⟨Nat.le_refl _, rfl⟩
  | cons info infos ih =>
    intro i byName c
    obtain ⟨c', run, -, total, reserved⟩ := counts_tensor c
    have length : (info :: infos).length = infos.length + 1 := List.length_cons
    unfold wp
    rw [sliceTensors, eval_bind_ok run]
    change wp _ _ _ c'
    rw [wp_bind]
    refine wp_lift (fun tensor _ => ?_) (fun stop eq => ?_)
    · rw [wp_bind]
      -- The loop over the tensors reserves nothing, so the cursor stays as sound as it was.
      refine wp_mono (ih (i + 1) (byName.insert info.name i) c') ?_ ?_
      · rintro ⟨tensors, byName'⟩ c'' ⟨work, same⟩
        exact ⟨by omega, same.trans reserved⟩
      · rintro stop c'' ⟨graceful, work, same⟩
        exact ⟨graceful, by omega, same.trans reserved⟩
    · exact ⟨(returns_sliceTensor base info).err_of_error eq, by omega, reserved⟩

/-- Everything before the padding is paid for, and so are the tensor infos it yields. -/
theorem reads_readHead (small : buf.length < 2 ^ 63) :
    Reads buf (fun head => 23 * head.2.2.length) 2 (readHead buf) := by
  -- The descriptions behind the metadata, whatever version and metadata came first.
  have infos : ∀ (version : UInt32) (metadata : BTreeMap GgufValue) (count : Nat),
      Reads buf (fun head => 23 * head.2.2.length) 2
        (readTensorInfos buf count >>= fun infos => pure (version, metadata, infos)) :=
    fun version metadata count => (reads_readTensorInfos count).map _ (fun infos => Nat.le_refl _)
  refine (reads_readN 4 2).after fun found => ?_
  split
  next wrong => exact Reads.fail _ _ _
  next right =>
    refine (reads_readU32 2).after fun version => ?_
    split
    next unsupported => exact Reads.fail _ _ _
    next supported =>
      refine (reads_readU64 2).after fun tensorCount => ?_
      refine (reads_readU64 2).after fun kvCount => ?_
      refine (reads_readMetadata kvCount.toNat ∅).after fun metadata => ?_
      intro c inside sound
      -- The reservation is bounded by the bytes left: no request beyond the buffer's length.
      have most : (buf.length - c.pos) / minTensorInfoBytes * 24 ≤ buf.length := by
        unfold minTensorInfoBytes
        omega
      have fits : (buf.length - c.pos) / minTensorInfoBytes + 1 < wordSize := by
        unfold wordSize
        omega
      have fewer := Nat.min_le_right tensorCount.toNat ((buf.length - c.pos) / minTensorInfoBytes + 1)
      simp only [wp_bind, wp_state]
      rw [word_of_lt fits, wp_lift_ok]
      have tail := (reads_reserve ⟨min tensorCount.toNat
        ((buf.length - c.pos) / minTensorInfoBytes + 1), infoSize⟩ (by dsimp only; omega)
          (by dsimp only [infoSize]; omega) 2).after fun _ => infos version metadata tensorCount.toNat
      exact tail c inside sound

/-- How a whole parse may end: with a result or an error unless a vector was refused, which takes
a huge file. -/
structure Finished (buf : List UInt8) (out : Res GgufFile) (c : Cursor) : Prop where
  returns_iff : out.Returns ↔ Granted c
  refused : ¬out.Returns → out = Outcome.panic .capacityOverflow ∧ 2 ^ 61 ≤ buf.length
  iterations : c.work.total ≤ 2 * buf.length + 2
  reserved : ∀ r ∈ c.work.reserved, r.count ≤ buf.length + 8

theorem Finished.of_returns {out : Res GgufFile} {c : Cursor} (returns : out.Returns) (sound : Sound buf c)
    (iterations : c.work.total ≤ 2 * buf.length + 2) : Finished buf out c :=
  ⟨iff_of_true returns sound.granted, fun stopped => absurd returns stopped, iterations, sound.modest⟩

theorem Finished.of_excused {stop : Stop Error} {c : Cursor} (excused : Excused buf stop c) (modest : Modest buf c)
    (iterations : c.work.total ≤ 2 * buf.length + 2) : Finished buf (.error stop) c := by
  cases excused with
  | err e eq granted =>
    subst eq
    exact .of_returns (returns_err e) ⟨modest, granted⟩ iterations
  | refused eq r asked large huge =>
    subst eq
    refine ⟨iff_of_false (not_returns_panic _) fun granted => ?_, fun _ => ⟨rfl, huge⟩, iterations, modest⟩
    have fits := granted r asked
    omega

/-- The tensors are counted and cut out; nothing more is asked for. -/
theorem finished_sliceTensors {version : UInt32} {metadata : BTreeMap GgufValue} {infos : List TensorInfo}
    {base : Nat} {c : Cursor} (sound : Sound buf c) (work : c.work.total + infos.length ≤ 2 * buf.length + 2) :
    wp (sliceTensors buf base 0 infos ∅ >>= fun out => pure (⟨version, metadata, out.1, out.2⟩ : GgufFile))
      (fun g c' => Finished buf (.ok g) c') (fun stop c' => Finished buf (.error stop) c') c := by
  -- Reservations are unchanged by the loop, and soundness speaks of nothing else.
  have sound' : ∀ c', c'.work.reserved = c.work.reserved → Sound buf c' := by
    intro c' same
    constructor
    · unfold Modest
      rw [same]
      exact sound.modest
    · unfold Granted
      rw [same]
      exact sound.granted
  rw [wp_bind]
  refine wp_mono (wp_sliceTensors base infos 0 ∅ c) ?_ ?_
  · rintro out c' ⟨work', same⟩
    exact .of_returns (returns_ok _) (sound' c' same) (by omega)
  · rintro stop c' ⟨⟨e, rfl⟩, work', same⟩
    exact .of_returns (returns_err e) (sound' c' same) (by omega)

theorem finished_placeTensors (version : UInt32) (metadata : BTreeMap GgufValue)
    (infos : List TensorInfo) (c : Cursor) (inside : c.pos ≤ buf.length)
    (work : c.work.total + 23 * infos.length ≤ c.pos) (sound : Sound buf c) :
    wp (placeTensors buf version metadata infos)
      (fun g c' => Finished buf (.ok g) c') (fun stop c' => Finished buf (.error stop) c') c := by
  unfold placeTensors
  dsimp only
  split
  next zero => exact .of_returns (returns_err _) sound (by omega)
  next nonzero =>
    -- Behind a non-zero alignment only three things can stop: `align_up`, the vector, the
    -- slices.
    rw [wp_bind, wp_state, wp_bind]
    refine wp_lift (fun aligned _ => ?_) (fun stop eq => ?_)
    · have request := wp_reserve ⟨infos.length, tensorSize⟩ (by dsimp only; omega)
        (by dsimp only [tensorSize]; omega) (sound.moved aligned)
      rw [seek, wp_bind, wp_update, wp_bind]
      refine wp_mono request ?_ ?_
      · rintro _ c' ⟨-, work', sound'⟩
        exact finished_sliceTensors sound' (by dsimp only at work'; omega)
      · rintro stop c' ⟨excused, work', modest⟩
        exact .of_excused excused modest (by dsimp only at work'; omega)
    · obtain ⟨e, rfl⟩ := (returns_alignUp nonzero).err_of_error eq
      exact .of_returns (returns_err e) sound (by omega)

/-- `parse` returns unless one of its vectors is refused; its iterations and the vectors it asks for
are linear in the file. -/
theorem parse_safe (blob : List UInt8) (small : blob.length < 2 ^ 63) :
    Finished blob ((parse blob).eval Cursor.new).1 ((parse blob).eval Cursor.new).2 := by
  have whole : wp (parse blob) (fun g c' => Finished blob (.ok g) c')
      (fun stop c' => Finished blob (.error stop) c') Cursor.new := by
    unfold parse
    rw [wp_bind]
    -- Nothing is reserved at the start.
    have start : Sound blob Cursor.new :=
      ⟨fun r mem => by simp [Cursor.new, Work.none] at mem, fun r mem => by simp [Cursor.new, Work.none] at mem⟩
    refine wp_mono (reads_readHead small Cursor.new (Nat.zero_le _) start) ?_ ?_
    · rintro ⟨version, metadata, infos⟩ c arrived
      -- The head's gain, 23 bytes a description, bounds the work the loop over the tensors
      -- adds.
      have work := arrived.work
      have zero : Cursor.new.work.total + Cursor.new.pos = 0 := rfl
      dsimp only at work
      exact finished_placeTensors version metadata infos c arrived.inside (by omega) arrived.sound
    · rintro stop c stopped
      have work := stopped.work
      have zero : Cursor.new.work.total + Cursor.new.pos = 0 := rfl
      have zero' : Cursor.new.work.total = 0 := rfl
      exact .of_excused stopped.excused stopped.modest (by omega)
  unfold wp at whole
  cases run : (parse blob).eval Cursor.new with
  | mk out c =>
    rw [run] at whole
    cases out with
    | ok g => exact whole
    | error stop => exact whole

/-- A file whose last tensor lacks a byte: every loop runs before the parser stops. -/
theorem parse_safe_cut :
    (parsed sample.write.dropLast).stop? = some (.err (.truncated "gguf: tensor extends past end of file")) ∧
      Finished sample.write.dropLast ((parse sample.write.dropLast).eval Cursor.new).1
        ((parse sample.write.dropLast).eval Cursor.new).2 :=
  ⟨by decide +kernel, parse_safe _ (by decide +kernel)⟩

/-- A file that announces as many tensors as there are numbers, over `2 ^ 62` bytes. -/
def endless : List UInt8 :=
  header 3 18446744073709551615 ++ List.replicate (2 ^ 62) 0

theorem endless_refused :
    (endless.length < 2 ^ 63 ∧ parsed endless = .error (.panic .capacityOverflow)) ∧
      ¬∀ blob : List UInt8, blob.length < 2 ^ 63 → (parsed blob).Returns := by
  have count : (18446744073709551615 : UInt64).toNat = 18446744073709551615 := rfl
  have small : endless.length < 2 ^ 63 := by
    rw [endless, List.length_append, length_header, List.length_replicate]
    omega
  -- The 2 ^ 62 bytes behind the header leave the declared count as the smaller bound.
  have refused : parsed endless = .error (.panic .capacityOverflow) := by
    refine parsed_refused (by decide) small ?_
    rw [List.length_replicate, count]
    unfold minTensorInfoBytes infoSize
    omega
  refine ⟨⟨small, refused⟩, fun always => ?_⟩
  have returns := always endless small
  rw [refused] at returns
  exact not_returns_panic _ returns

end GgufFile

end VitniTensor
