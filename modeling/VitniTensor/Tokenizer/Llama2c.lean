import VitniTensor.Tokenizer.ScoreMerge

/-!
# The llama2.c tokenizer

The blob has the longest token's length, and then a score and a byte string for each entry. The
number of entries comes from elsewhere. Text is encoded byte by byte and merged by score.
-/

namespace VitniTensor

open Outcome GgufBpe Neighbours LittleEndian

structure Llama2cTokenizer extends ScoredVocab where
  maxTokenLength : Nat

namespace Llama2cTokenizer

/-- `read_u32(off, blob)`. -/
def readU32 (off : Nat) (blob : List UInt8) : Res UInt32 := do
  let b0 ← index blob off
  let b1 ← index blob (off + 1)
  let b2 ← index blob (off + 2)
  let b3 ← index blob (off + 3)
  pure (UInt32.ofNat (ofBytes [b0, b1, b2, b3]))

/-- The entry at `p`: score, text, and where the next one starts. -/
def readEntry (blob : List UInt8) (p : Nat) : Res (Binary32 × List UInt8 × Nat) := do
  let header ← word (p + 8)
  if header > blob.length then err (.invalidShape "tokenizer blob truncated mid-entry header")
  else do
    let score ← readU32 p blob
    let len ← readU32 (p + 4) blob
    let stop ← word (header + len.toNat)
    if stop > blob.length then err (.invalidShape "tokenizer blob truncated mid-token")
    else do
      let bytes ← slice blob header stop
      pure (F32.ofBits score, bytes, stop)

/-- `entry(bytes).or_insert(i as u32)`, and the two pushes. -/
def push (v : ScoredVocab) (i : Nat) (score : Binary32) (bytes : List UInt8) : ScoredVocab where
  vocab := v.vocab ++ [bytes]
  scores := v.scores ++ [score]
  byBytes := v.byBytes.insertIfNew bytes (UInt32.ofNat i)

def fromBlob (blob : List UInt8) (vocabSize : Nat) : Res Llama2cTokenizer :=
  if blob.length < 4 then err (.invalidShape "tokenizer blob < 4 bytes")
  else do
    let maxTokenLength ← readU32 0 blob
    reserveStrings vocabSize
    reserveFloats vocabSize
    let (v, _) ← forRange vocabSize
      (fun i (v, p) => do
        let (score, bytes, p) ← readEntry blob p
        pure (push v i score bytes, p))
      (⟨[], [], ∅⟩, 4)
    pure ⟨v, maxTokenLength.toNat⟩

/-- The ids of the single bytes. A byte without an entry is dropped. -/
def byteIds (t : Llama2cTokenizer) (text : String) : List UInt32 :=
  text.asBytes.filterMap fun ch => t.byBytes[[ch]]?

def encode (t : Llama2cTokenizer) (text : String) (bos : Bool) : Res (List UInt32) :=
  t.mergeLoop 0 ((if bos then [1] else []) ++ t.byteIds text)

/-! ### The writer -/

def writeEntry (e : UInt32 × List UInt8) : List UInt8 :=
  toBytes 4 e.1.toNat ++ toBytes 4 e.2.length ++ e.2

/-- The documented format. -/
def write (maxTokenLength : UInt32) (entries : List (UInt32 × List UInt8)) : List UInt8 :=
  toBytes 4 maxTokenLength.toNat ++ entries.flatMap writeEntry

/-! ### Reading words -/

theorem readU32_eq {blob : List UInt8} {off : Nat} (h : off + 4 ≤ blob.length) :
    readU32 off blob = .ok (UInt32.ofNat (ofBytes ((blob.drop off).take 4))) := by
  obtain ⟨front, back, rfl, hfront⟩ : ∃ front back, blob = front ++ back ∧ front.length = off :=
    ⟨blob.take off, blob.drop off, (List.take_append_drop off blob).symm, by rw [List.length_take]; omega⟩
  subst hfront
  rw [List.length_append] at h
  match back, h with
  | b0 :: b1 :: b2 :: b3 :: rest, _ =>
    unfold readU32
    rw [List.drop_left]
    simp [index]
  | [], h | [_], h | [_, _], h | [_, _, _], h =>
    simp only [List.length_cons, List.length_nil] at h
    omega

/-- A written word is read back. -/
theorem readU32_write (front rest : List UInt8) {n : Nat} (h : n < 2 ^ 32) :
    readU32 front.length (front ++ (toBytes 4 n ++ rest)) = .ok (UInt32.ofNat n) := by
  have hlength : (toBytes 4 n).length = 4 := length_toBytes 4 n
  rw [readU32_eq (by rw [List.length_append, List.length_append]; omega), List.drop_left, List.take_left' hlength,
    ofBytes_toBytes (by omega)]

/-! ### Reading entries -/

@[simp] theorem length_writeEntry (e : UInt32 × List UInt8) : (writeEntry e).length = 8 + e.2.length := by
  unfold writeEntry
  rw [List.length_append, List.length_append, length_toBytes, length_toBytes]

/-- A header that is there, and as much of the text as there is. -/
theorem readEntry_header (front : List UInt8) {e : UInt32 × List UInt8} (he : e.2.length < 2 ^ 32) (back : List UInt8)
    (hsize : (front ++ (toBytes 4 e.1.toNat ++ toBytes 4 e.2.length ++ back)).length < 2 ^ 63) :
    readEntry (front ++ (toBytes 4 e.1.toNat ++ toBytes 4 e.2.length ++ back)) front.length =
      if e.2.length > back.length then err (.invalidShape "tokenizer blob truncated mid-token")
      else .ok (F32.ofBits e.1, back.take e.2.length, front.length + (writeEntry e).length) := by
  have hword : wordSize = 2 ^ 64 := rfl
  have hscore := e.1.toNat_lt
  have hlength : ∀ n, (toBytes 4 n).length = 4 := length_toBytes 4
  generalize hblob : front ++ (toBytes 4 e.1.toNat ++ toBytes 4 e.2.length ++ back) = blob at hsize ⊢
  have hblobLength : blob.length = front.length + 8 + back.length := by
    rw [← hblob]
    simp only [List.length_append, hlength]
    omega
  -- the two words
  have hfirst : readU32 front.length blob = .ok e.1 := by
    rw [← hblob, List.append_assoc, readU32_write front _ hscore, UInt32.ofNat_toNat]
  have hsecond : readU32 (front.length + 4) blob = .ok (UInt32.ofNat e.2.length) := by
    have hread := readU32_write (front ++ toBytes 4 e.1.toNat) back he
    rwa [List.length_append, hlength, List.append_assoc, ← List.append_assoc (toBytes 4 e.1.toNat), hblob] at hread
  have hlen : (UInt32.ofNat e.2.length).toNat = e.2.length := UInt32.toNat_ofNat_of_lt' he
  have hheader : ¬front.length + 8 > blob.length := by omega
  unfold readEntry
  rw [word_of_lt (by omega), ok_bind, if_neg hheader, hfirst, ok_bind, hsecond, ok_bind, hlen, word_of_lt (by omega),
    ok_bind]
  by_cases hback : e.2.length > back.length
  · have hstop : front.length + 8 + e.2.length > blob.length := by omega
    rw [if_pos hback, if_pos hstop]
  · have hstop : ¬front.length + 8 + e.2.length > blob.length := by omega
    have hdrop : blob.drop (front.length + 8) = back := by
      rw [← hblob, ← List.append_assoc]
      apply List.drop_left'
      simp only [List.length_append, hlength]
    rw [if_neg hback, if_neg hstop, slice_of_le (by omega) (by omega), ok_bind, hdrop, Nat.add_sub_cancel_left,
      length_writeEntry, Nat.add_assoc]
    rfl

/-- A written entry is read back. -/
theorem readEntry_write (front : List UInt8) {e : UInt32 × List UInt8} (he : e.2.length < 2 ^ 32) (rest : List UInt8)
    (hsize : (front ++ (writeEntry e ++ rest)).length < 2 ^ 63) :
    readEntry (front ++ (writeEntry e ++ rest)) front.length =
      .ok (F32.ofBits e.1, e.2, front.length + (writeEntry e).length) := by
  have hsplit : writeEntry e ++ rest = toBytes 4 e.1.toNat ++ toBytes 4 e.2.length ++ (e.2 ++ rest) :=
    List.append_assoc _ _ _
  have hlong : ¬e.2.length > (e.2 ++ rest).length := by
    rw [List.length_append]
    omega
  rw [hsplit] at hsize ⊢
  rw [readEntry_header front he _ hsize, if_neg hlong, List.take_left]

/-- An entry that is cut anywhere is refused. -/
theorem readEntry_cut (front : List UInt8) {e : UInt32 × List UInt8} (he : e.2.length < 2 ^ 32)
    {cut missing : List UInt8} (hcut : cut ++ missing = writeEntry e) (hmissing : missing ≠ [])
    (hsize : (front ++ cut).length < 2 ^ 63) : ∃ e', readEntry (front ++ cut) front.length = err e' := by
  have hword : wordSize = 2 ^ 64 := rfl
  have hshort : cut.length < 8 + e.2.length := by
    have hpos := List.length_pos_iff.mpr hmissing
    rw [← length_writeEntry e, ← hcut, List.length_append]
    omega
  by_cases hheader : cut.length < 8
  · refine ⟨.invalidShape "tokenizer blob truncated mid-entry header", ?_⟩
    unfold readEntry
    rw [List.length_append] at hsize ⊢
    rw [word_of_lt (by omega), ok_bind, if_pos (by omega)]
  · -- the header is whole, so the text is cut
    have hhead : (toBytes 4 e.1.toNat ++ toBytes 4 e.2.length).length = 8 := by
      rw [List.length_append, length_toBytes, length_toBytes]
    obtain ⟨back, rfl⟩ : ∃ back, cut = toBytes 4 e.1.toNat ++ toBytes 4 e.2.length ++ back := by
      refine ⟨cut.drop 8, ?_⟩
      have htake : cut.take 8 = toBytes 4 e.1.toNat ++ toBytes 4 e.2.length := by
        have hfront : (cut ++ missing).take 8 = cut.take 8 :=
          List.take_append_of_le_length (Nat.not_lt.mp hheader)
        rw [← hfront, hcut]
        exact List.take_left' hhead
      rw [← htake, List.take_append_drop]
    rw [List.length_append, hhead] at hshort
    rw [readEntry_header front he back hsize, if_pos (by omega)]
    exact ⟨_, rfl⟩

/-! ### Reading the blob -/

/-- The next entry of a vocabulary. -/
theorem push_ofEntries (entries : List (UInt32 × List UInt8)) (e : UInt32 × List UInt8) :
    push (ScoredVocab.ofEntries entries) entries.length (F32.ofBits e.1) e.2 =
      ScoredVocab.ofEntries (entries ++ [e]) := by
  unfold push ScoredVocab.ofEntries
  simp only [List.map_append, List.map_singleton, vocabOf_concat, List.length_map]

/-- One turn of the loop of `from_blob`. -/
def turn (blob : List UInt8) (i : Nat) (s : ScoredVocab × Nat) : Res (ScoredVocab × Nat) := do
  let (score, bytes, p) ← readEntry blob s.2
  pure (push s.1 i score bytes, p)

theorem fromBlob_eq {blob : List UInt8} {vocabSize : Nat} (h : 4 ≤ blob.length) (hreserve : vocabSize * 24 < 2 ^ 63) :
    fromBlob blob vocabSize =
      readU32 0 blob >>= fun maxTokenLength =>
        forRange vocabSize (turn blob) (ScoredVocab.ofEntries [], 4) >>= fun s =>
          pure ⟨s.1, maxTokenLength.toNat⟩ := by
  have hstrings : reserveStrings vocabSize = .ok () := if_pos hreserve
  have hfloats : reserveFloats vocabSize = .ok () := if_pos (by omega)
  unfold fromBlob
  rw [if_neg (Nat.not_lt.mpr h), hstrings, hfloats]
  rfl

variable {maxTokenLength : UInt32}

/-- The entries that are read so far are in front of the cursor. -/
theorem loop_write (front rest : List UInt8) (done todo : List (UInt32 × List UInt8))
    (hlengths : ∀ e ∈ todo, e.2.length < 2 ^ 32)
    (hsize : (front ++ (todo.flatMap writeEntry ++ rest)).length < 2 ^ 63) :
    forFrom done.length todo.length (turn (front ++ (todo.flatMap writeEntry ++ rest)))
        (ScoredVocab.ofEntries done, front.length) =
      .ok (ScoredVocab.ofEntries (done ++ todo), (front ++ todo.flatMap writeEntry).length) := by
  induction todo generalizing front done with
  | nil =>
    rw [List.append_nil, List.flatMap_nil, List.append_nil]
    rfl
  | cons e todo ih =>
    have hblob : front ++ ((e :: todo).flatMap writeEntry ++ rest) =
        front ++ writeEntry e ++ (todo.flatMap writeEntry ++ rest) := by
      rw [List.flatMap_cons, List.append_assoc, List.append_assoc]
    obtain ⟨he, hrest⟩ := List.forall_mem_cons.mp hlengths
    have hread := readEntry_write front he (todo.flatMap writeEntry ++ rest)
    have hnext := ih (front ++ writeEntry e) (done ++ [e]) hrest (hblob ▸ hsize)
    rw [← List.append_assoc, ← hblob] at hread
    rw [← hblob, List.length_append, List.length_append, List.length_singleton, List.append_assoc,
      List.singleton_append] at hnext
    have hend : front ++ (e :: todo).flatMap writeEntry = front ++ writeEntry e ++ todo.flatMap writeEntry := by
      rw [List.flatMap_cons, List.append_assoc]
    rw [List.length_cons, forFrom, turn, hread hsize, ok_bind, hend]
    dsimp only
    rw [push_ofEntries]
    exact hnext

/-- Where the entries are cut, reading them ends in an error. -/
theorem loop_cut (front : List UInt8) (done todo : List (UInt32 × List UInt8))
    (hlengths : ∀ e ∈ todo, e.2.length < 2 ^ 32) {cut missing : List UInt8}
    (hcut : cut ++ missing = todo.flatMap writeEntry) (hmissing : missing ≠ []) (hsize : (front ++ cut).length < 2 ^ 63) :
    ∃ e', forFrom done.length todo.length (turn (front ++ cut)) (ScoredVocab.ofEntries done, front.length) = err e' := by
  induction todo generalizing front done cut with
  | nil => exact absurd (List.append_eq_nil_iff.mp hcut).2 hmissing
  | cons e todo ih =>
    obtain ⟨he, hrest⟩ := List.forall_mem_cons.mp hlengths
    rw [List.flatMap_cons] at hcut
    rw [List.length_cons, forFrom, turn]
    by_cases hinside : cut.length < (writeEntry e).length
    · -- this entry is cut
      obtain ⟨more, hmore⟩ : cut <+: writeEntry e :=
        List.prefix_of_prefix_length_le ⟨missing, hcut⟩ (List.prefix_append _ _) (Nat.le_of_lt hinside)
      have hne : more ≠ [] := by
        rintro rfl
        rw [← hmore, List.append_nil] at hinside
        exact absurd hinside (Nat.lt_irrefl _)
      obtain ⟨e', he'⟩ := readEntry_cut front he hmore hne hsize
      rw [he']
      exact ⟨e', rfl⟩
    · -- this entry is whole, and a later one is cut
      obtain ⟨cut', rfl⟩ : writeEntry e <+: cut :=
        List.prefix_of_prefix_length_le (List.prefix_append _ _) ⟨missing, hcut⟩ (Nat.not_lt.mp hinside)
      rw [List.append_assoc] at hcut
      have hread := readEntry_write front he cut' hsize
      rw [hread, ok_bind]
      dsimp only
      rw [push_ofEntries, ← List.append_assoc]
      rw [← List.append_assoc] at hsize
      obtain ⟨e', he'⟩ := ih (front ++ writeEntry e) (done ++ [e]) hrest (List.append_cancel_left hcut) hsize
      rw [List.length_append, List.length_append, List.length_singleton] at he'
      exact ⟨e', he'⟩

theorem readU32_front (rest : List UInt8) :
    readU32 0 (toBytes 4 maxTokenLength.toNat ++ rest) = .ok maxTokenLength := by
  have hread := readU32_write [] rest maxTokenLength.toNat_lt
  rwa [UInt32.ofNat_toNat] at hread

/-- A written blob is read back, whatever is behind it. -/
theorem fromBlob_write_ok {entries : List (UInt32 × List UInt8)} (hlengths : ∀ e ∈ entries, e.2.length < 2 ^ 32)
    (hreserve : entries.length * 24 < 2 ^ 63) {rest : List UInt8}
    (hsize : (write maxTokenLength entries ++ rest).length < 2 ^ 63) :
    fromBlob (write maxTokenLength entries ++ rest) entries.length =
      .ok ⟨ScoredVocab.ofEntries entries, maxTokenLength.toNat⟩ := by
  have hword : (toBytes 4 maxTokenLength.toNat).length = 4 := length_toBytes 4 _
  unfold write at hsize ⊢
  rw [List.append_assoc] at hsize ⊢
  have hloop := loop_write (toBytes 4 maxTokenLength.toNat) rest [] entries hlengths hsize
  rw [hword, List.length_nil, List.nil_append] at hloop
  rw [fromBlob_eq (by rw [List.length_append]; omega) hreserve, readU32_front, ok_bind, forRange, hloop]
  rfl

/-- A written blob that is cut anywhere is refused. -/
theorem fromBlob_cut {entries : List (UInt32 × List UInt8)} (hlengths : ∀ e ∈ entries, e.2.length < 2 ^ 32)
    (hreserve : entries.length * 24 < 2 ^ 63) (hsize : (write maxTokenLength entries).length < 2 ^ 63)
    {cut missing : List UInt8} (hcut : cut ++ missing = write maxTokenLength entries) (hmissing : missing ≠ []) :
    ∃ e, fromBlob cut entries.length = err e := by
  have hword : (toBytes 4 maxTokenLength.toNat).length = 4 := length_toBytes 4 _
  unfold write at hcut hsize
  by_cases hshort : cut.length < 4
  · refine ⟨.invalidShape "tokenizer blob < 4 bytes", ?_⟩
    unfold fromBlob
    rw [if_pos hshort]
  · obtain ⟨cut', rfl⟩ : toBytes 4 maxTokenLength.toNat <+: cut :=
      List.prefix_of_prefix_length_le (List.prefix_append _ _) ⟨missing, hcut⟩ (by omega)
    have hcutSize : (toBytes 4 maxTokenLength.toNat ++ cut').length < 2 ^ 63 := by
      rw [← hcut, List.length_append] at hsize
      exact Nat.lt_of_le_of_lt (Nat.le_add_right _ _) hsize
    rw [List.append_assoc] at hcut
    obtain ⟨e, he⟩ := loop_cut (toBytes 4 maxTokenLength.toNat) [] entries hlengths (List.append_cancel_left hcut) hmissing
      hcutSize
    rw [hword, List.length_nil] at he
    rw [fromBlob_eq (Nat.not_lt.mp hshort) hreserve, readU32_front, ok_bind, forRange, he]
    exact ⟨e, rfl⟩

/-- The index has the first place of every text. -/
theorem byBytes_ofEntries (entries : List (UInt32 × List UInt8)) (s : List UInt8) :
    (ScoredVocab.ofEntries entries).byBytes[s]? = ((entries.map Prod.snd).idxOf? s).map UInt32.ofNat := by
  change (vocabOf (entries.map Prod.snd))[s]? = _
  by_cases hs : s ∈ entries.map Prod.snd
  · rw [vocabOf_getElem? hs, idxOf?_of_mem hs, Option.map_some]
  · rw [List.idxOf?_eq_none_iff.mpr hs, Option.map_none]
    apply Option.eq_none_iff_forall_ne_some.mpr
    intro id hid
    exact hs (vocabOf_eq_some.mp hid).1

/-- **The format round-trips**: a written blob with anything behind it gives back the scores by their
bits and the texts in order, every text is indexed by its first place (as a `u32`), and every
strict prefix of the blob is refused with an error. -/
theorem fromBlob_write (maxTokenLength : UInt32) (entries : List (UInt32 × List UInt8))
    (hlengths : ∀ e ∈ entries, e.2.length < 2 ^ 32) (hreserve : entries.length * 24 < 2 ^ 63)
    (hsize : (write maxTokenLength entries).length < 2 ^ 63) :
    (∀ rest, (write maxTokenLength entries ++ rest).length < 2 ^ 63 →
      ∃ t, fromBlob (write maxTokenLength entries ++ rest) entries.length = .ok t ∧
        t.maxTokenLength = maxTokenLength.toNat ∧
        t.scores.map F32.toBits = entries.map Prod.fst ∧
        t.vocab = entries.map Prod.snd ∧
        ∀ s, t.byBytes[s]? = ((entries.map Prod.snd).idxOf? s).map UInt32.ofNat) ∧
    ∀ cut missing, cut ++ missing = write maxTokenLength entries → missing ≠ [] →
      ∃ e, fromBlob cut entries.length = err e := by
  constructor
  · intro rest hrest
    refine ⟨_, fromBlob_write_ok hlengths hreserve hrest, rfl, ?_, rfl, byBytes_ofEntries entries⟩
    change (entries.map fun e => (F32.ofBits e.1 : Binary32)).map F32.toBits = _
    rw [List.map_map]
    rfl
  · exact fun cut missing hcut hmissing => fromBlob_cut hlengths hreserve hsize hcut hmissing

/-- Two entries, the same text twice. -/
theorem fromBlob_write_twice :
    (∀ rest, (write 1 [(0, [0x61]), (0x3F800000, [0x61])] ++ rest).length < 2 ^ 63 →
      ∃ t, fromBlob (write 1 [(0, [0x61]), (0x3F800000, [0x61])] ++ rest) 2 = .ok t ∧
        t.maxTokenLength = 1 ∧ t.scores.map F32.toBits = [0, 0x3F800000] ∧ t.vocab = [[0x61], [0x61]] ∧
        ∀ s, t.byBytes[s]? = (([[0x61], [0x61]] : List (List UInt8)).idxOf? s).map UInt32.ofNat) ∧
    ∀ cut missing, cut ++ missing = write 1 [(0, [0x61]), (0x3F800000, [0x61])] → missing ≠ [] →
      ∃ e, fromBlob cut 2 = err e :=
  fromBlob_write 1 [(0, [0x61]), (0x3F800000, [0x61])] (by decide) (by decide) (by decide)

theorem length_write (maxTokenLength : UInt32) (entries : List (UInt32 × List UInt8)) :
    (write maxTokenLength entries).length = 4 + (entries.map fun e => 8 + e.2.length).sum := by
  unfold write
  rw [List.length_append, length_toBytes, List.length_flatMap]
  simp only [length_writeEntry]

/-- Entries without text, and then `"a"`. -/
def behindEmpty (n : Nat) : List (UInt32 × List UInt8) :=
  List.replicate n (0, []) ++ [(0, [0x61])]

theorem length_behindEmpty (n : Nat) : (behindEmpty n).length = n + 1 := by
  unfold behindEmpty
  rw [List.length_append, List.length_replicate, List.length_singleton]

theorem length_write_behindEmpty (n : Nat) : (write 0 (behindEmpty n)).length = 13 + n * 8 := by
  unfold behindEmpty
  rw [length_write, List.map_append, List.map_replicate, List.sum_append, List.sum_replicate_nat, List.map_singleton,
    List.sum_singleton]
  simp only [List.length_nil, List.length_singleton]
  omega

theorem short_behindEmpty (n : Nat) : ∀ e ∈ behindEmpty n, e.2.length < 2 ^ 32 := by
  intro e he
  rcases List.mem_append.mp he with hempty | hlast
  · rw [List.eq_of_mem_replicate hempty]
    decide
  · rw [List.mem_singleton.mp hlast]
    decide

theorem idxOf?_behindEmpty (n : Nat) : ((behindEmpty n).map Prod.snd).idxOf? [0x61] = some n := by
  have hnot : ([0x61] : List UInt8) ∉ List.replicate n [] := by
    intro hmem
    exact absurd (List.eq_of_mem_replicate hmem) (List.cons_ne_nil _ _)
  unfold behindEmpty
  rw [List.map_append, List.map_replicate, List.map_singleton]
  rw [idxOf?_of_mem (List.mem_append_right _ List.mem_cons_self), List.idxOf_append_of_notMem hnot,
    List.idxOf_cons_self, List.length_replicate, Nat.add_zero]

/-- The index of a `u32` does not reach past `2^32` entries, and the vector of the texts does not hold
`2^59` of them. -/
theorem fromBlob_write_limits :
    (¬∀ (maxTokenLength : UInt32) (entries : List (UInt32 × List UInt8)), (∀ e ∈ entries, e.2.length < 2 ^ 32) →
      entries.length * 24 < 2 ^ 63 → (write maxTokenLength entries).length < 2 ^ 63 →
      ∃ t, fromBlob (write maxTokenLength entries) entries.length = .ok t ∧
        ∀ s, t.byBytes[s]?.map UInt32.toNat = (entries.map Prod.snd).idxOf? s) ∧
    ¬∀ (maxTokenLength : UInt32) (entries : List (UInt32 × List UInt8)), (∀ e ∈ entries, e.2.length < 2 ^ 32) →
      (write maxTokenLength entries).length < 2 ^ 63 →
      ∃ t, fromBlob (write maxTokenLength entries) entries.length = .ok t := by
  -- the numbers stay variables, so that nothing is computed
  constructor
  · intro hclaim
    obtain ⟨n, hn⟩ : ∃ n : Nat, n = 2 ^ 32 := ⟨_, rfl⟩
    obtain ⟨t, -, hindex⟩ := hclaim 0 (behindEmpty n) (short_behindEmpty n)
      (by rw [length_behindEmpty]; omega) (by rw [length_write_behindEmpty]; omega)
    obtain ⟨id, -, hid⟩ := Option.map_eq_some_iff.mp ((hindex [0x61]).trans (idxOf?_behindEmpty n))
    have hlt := id.toNat_lt
    omega
  · intro hclaim
    obtain ⟨n, hn⟩ : ∃ n : Nat, n = 2 ^ 59 := ⟨_, rfl⟩
    have hlong : (write 0 (behindEmpty n)).length = 13 + n * 8 := length_write_behindEmpty n
    obtain ⟨t, ht⟩ := hclaim 0 (behindEmpty n) (short_behindEmpty n) (by omega)
    have hreserve : reserveStrings (behindEmpty n).length = panic .capacityOverflow := by
      unfold reserveStrings
      rw [length_behindEmpty, if_neg (by omega)]
    unfold fromBlob at ht
    rw [if_neg (by omega)] at ht
    unfold write at ht
    rw [readU32_front, ok_bind, hreserve] at ht
    cases ht

end Llama2cTokenizer

end VitniTensor
