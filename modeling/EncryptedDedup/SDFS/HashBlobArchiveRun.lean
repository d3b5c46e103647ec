import EncryptedDedup.SDFS.HashBlobArchive

/-!
# Concurrent writes of a `HashBlobArchive`

The places of the records follow each other in the file, and a record that is written is read back.
-/

namespace EncryptedDedup.SDFS.HashBlobArchive

variable {a : Archive} {s : Calls} {r : Reserved} {hash chunk : Bytes}

/-- Compression and encryption have inverses, encryption pads, and offsets are of the type `int`. -/
structure Archive.Lawful (a : Archive) : Prop where
  decompress : ∀ chunk : Bytes, a.decompressLz4 (a.compressLz4 chunk) chunk.length = some chunk
  decrypt : ∀ b, a.decryptCBC (a.encryptCBC b) = some b
  padded : ∀ b, a.encryptCBC b ≠ []
  fits : a.blocksz + 4 + a.hashLength < 2 ^ 31

/-- The arguments of a call; what is stored for the chunk is in one array. -/
structure Call (a : Archive) (hash chunk : Bytes) : Prop where
  hashLength : hash.length = a.hashLength
  nonempty : chunk ≠ []
  small : chunk.length < 2 ^ 31
  fits : (a.encode chunk).length < 2 ^ 31

/-! ### What is stored for a chunk -/

theorem bmod_small {x : Int} (low : 0 ≤ x) (high : x < 2 ^ 31) : x.bmod (2 ^ 32) = x :=
  Int.bmod_eq_of_le (by omega) (by omega)

theorem getInt_wrap (x : Int) (v : Bytes) :
    (ByteBuffer.wrap (toBE32 x ++ v)).getInt = some (x.bmod (2 ^ 32), ByteBuffer.read (toBE32 x) v) :=
  ByteBuffer.getInt_read [] v x

theorem rest_read (w v : Bytes) : slice (ByteBuffer.read w v).array (ByteBuffer.read w v).position
    (ByteBuffer.read w v).remaining = v := by
  have length : (w ++ v).length - w.length = v.length := by rw [List.length_append, Nat.add_sub_cancel_left]
  simp only [ByteBuffer.read, ByteBuffer.remaining, length]
  have part := slice_between w v []
  rwa [List.append_nil] at part

theorem decode_encode (lawful : a.Lawful) (call : Call a hash chunk) : a.decode (a.encode chunk) = some chunk := by
  have positive := List.length_pos_of_ne_nil call.nonempty
  have small := call.small
  have plain : ∀ ub : Bytes, ub = (toBE32 (if a.compress then (chunk.length : Int) else -1) ++
      if a.compress then a.compressLz4 chunk else chunk) →
      ((ByteBuffer.wrap ub).getInt >>= fun r =>
        let cp := slice r.2.array r.2.position r.2.remaining
        if 0 < r.1 then a.decompressLz4 cp r.1 else some cp) = some chunk := by
    rintro ub rfl
    rw [getInt_wrap]
    simp only [Option.bind_eq_bind, Option.bind_some, rest_read]
    cases a.compress with
    | true =>
      simp only [if_true]
      rw [bmod_small (by omega) (by omega), if_pos (by omega)]
      exact lawful.decompress chunk
    | false =>
      simp only [Bool.false_eq_true, if_false]
      rw [if_neg (by decide)]
  unfold Archive.decode Archive.encode
  cases a.chunkStoreEncryptionEnabled with
  | true =>
    simp only [if_true]
    rw [lawful.decrypt, Option.bind_eq_bind, Option.bind_some]
    exact plain _ rfl
  | false =>
    simp only [Bool.false_eq_true, if_false]
    rw [Option.bind_eq_bind, Option.bind_some]
    exact plain _ rfl

theorem encode_pos (lawful : a.Lawful) (chunk : Bytes) : 0 < (a.encode chunk).length := by
  unfold Archive.encode
  dsimp only
  split
  · exact List.length_pos_of_ne_nil (lawful.padded _)
  · rw [List.length_append, length_toBE32]
    omega

/-! ### Records in the file -/

theorem Reserved.length_bytes (r : Reserved) : r.bytes.length = 4 + r.hash.length + 4 + r.stored.length := by
  simp only [Reserved.bytes, List.length_append, length_toBE32]

def Reserved.covers (r : Reserved) (x : Int) : Prop := r.cp ≤ x ∧ x < r.cp + r.bytes.length

def Intact (file : Int → Option UInt8) (r : Reserved) : Prop := ∀ x, r.covers x → file x = byteAt r.bytes (x - r.cp)

theorem readAt_intact {file : Int → Option UInt8} (intact : Intact file r) {o n : Nat} (part : o + n ≤ r.bytes.length) :
    readAt file (r.cp + o) n = slice r.bytes o n := by
  have length : (slice r.bytes o n).length = n := length_slice part
  apply List.ext_getElem
  · rw [length, readAt, List.length_map, List.length_range]
  · intro k inside _
    rw [readAt, List.length_map, List.length_range] at inside
    have index : ((o : Int) + k).toNat = o + k := by omega
    have within : o + k < r.bytes.length := by omega
    have byte : file (r.cp + o + k) = some r.bytes[o + k] := by
      rw [intact _ ⟨by omega, by omega⟩, byteAt, if_pos (by omega), show r.cp + o + k - r.cp = (o : Int) + k by omega,
        index]
      exact List.getElem?_eq_getElem within
    simp only [readAt, slice, List.getElem_map, List.getElem_range, List.getElem_take, List.getElem_drop, byte,
      Option.getD_some]

theorem slice_length (r : Reserved) : slice r.bytes (4 + r.hash.length) 4 = toBE32 r.stored.length := by
  have part := slice_between (toBE32 r.hash.length ++ r.hash) (toBE32 r.stored.length) r.stored
  rwa [List.length_append, length_toBE32, length_toBE32] at part

theorem slice_stored (r : Reserved) : slice r.bytes (4 + r.hash.length + 4) r.stored.length = r.stored := by
  have part := slice_between (toBE32 r.hash.length ++ r.hash ++ toBE32 r.stored.length) r.stored []
  rwa [List.append_nil, List.length_append, List.length_append, length_toBE32, length_toBE32] at part

structure Placed (a : Archive) (r : Reserved) : Prop where
  call : Call a r.hash r.chunk
  stored : r.stored = a.encode r.chunk
  low : 0 ≤ r.cp
  high : r.cp < a.blocksz

theorem Placed.pos (placed : Placed a r) (lawful : a.Lawful) :
    int (int r.cp + 4 + r.hash.length) = r.cp + 4 + r.hash.length := by
  have fits := lawful.fits
  have low := placed.low
  have high := placed.high
  have hash := placed.call.hashLength
  rw [int, int, bmod_small low (by omega), bmod_small (by omega) (by omega)]

theorem Placed.length (placed : Placed a r) (lawful : a.Lawful) :
    0 < (r.stored.length : Int) ∧ (r.stored.length : Int) < 2 ^ 31 := by
  have positive := encode_pos lawful r.chunk
  have stored := placed.call.fits
  rw [placed.stored]
  omega

/-! ### Reading back -/

/-- The file that `getChunk` reads is the one that is written. -/
def Archive.Readable (a : Archive) : Prop := a.version = 0 ∨ a.localData = true

theorem readAt_length {file : Int → Option UInt8} (placed : Placed a r) (lawful : a.Lawful) (intact : Intact file r) :
    ofBE32 (readAt file (r.cp + 4 + r.hash.length) 4) = r.stored.length := by
  have bytes := r.length_bytes
  obtain ⟨positive, small⟩ := placed.length lawful
  have part := readAt_intact intact (o := 4 + r.hash.length) (n := 4) (by omega)
  rw [Nat.cast_add, Nat.cast_ofNat, ← Int.add_assoc] at part
  rw [part, slice_length, ofBE32_toBE32, bmod_small (by omega) small]

theorem readAt_stored {file : Int → Option UInt8} (intact : Intact file r) :
    readAt file (r.cp + 4 + r.hash.length + 4) r.stored.length = r.stored := by
  have bytes := r.length_bytes
  have part := readAt_intact intact (o := 4 + r.hash.length + 4) (n := r.stored.length) (by omega)
  rw [Nat.cast_add, Nat.cast_add, Nat.cast_ofNat, ← Int.add_assoc, ← Int.add_assoc] at part
  rw [part, slice_stored]

theorem entryOf_words (placed : Placed a r) (lawful : a.Lawful) (later : a.version ≠ 0) :
    ofBE32 (slice (toBE64 (entryOf a r.hash r.stored r.cp)) 0 4) = r.cp + 4 + r.hash.length ∧
    ofBE32 (slice (toBE64 (entryOf a r.hash r.stored r.cp)) 4 4) = r.stored.length := by
  obtain ⟨positive, small⟩ := placed.length lawful
  have fits := lawful.fits
  have low := placed.low
  have high := placed.high
  have hash := placed.call.hashLength
  have eight : (toBE32 (r.cp + 4 + r.hash.length) ++ toBE32 r.stored.length).length = 8 := by
    rw [List.length_append, length_toBE32, length_toBE32]
  have first := slice_between [] (toBE32 (r.cp + 4 + r.hash.length)) (toBE32 r.stored.length)
  have second := slice_between (toBE32 (r.cp + 4 + r.hash.length)) (toBE32 r.stored.length) []
  rw [length_toBE32, List.nil_append] at first
  rw [length_toBE32, length_toBE32, List.append_nil] at second
  unfold entryOf
  rw [if_neg later, placed.pos lawful, toBE64_ofBE64 eight]
  constructor
  · exact (congrArg ofBE32 first).trans ((ofBE32_toBE32 _).trans (bmod_small (by omega) (by omega)))
  · exact (congrArg ofBE32 second).trans ((ofBE32_toBE32 _).trans (bmod_small (by omega) small))

theorem entryOf_ne (placed : Placed a r) (lawful : a.Lawful) : entryOf a r.hash r.stored r.cp ≠ -1 := by
  intro same
  by_cases first : a.version = 0
  · have low := placed.low
    unfold entryOf at same
    rw [if_pos first, placed.pos lawful] at same
    omega
  · have length := (entryOf_words placed lawful first).2
    obtain ⟨positive, -⟩ := placed.length lawful
    have ones : ofBE32 (slice (toBE64 (-1)) 4 4) = -1 := by decide
    rw [same, ones] at length
    omega

theorem getChunk_intact {s : State} (placed : Placed a r) (lawful : a.Lawful) (readable : a.Readable)
    (entry : s.map r.hash = some (entryOf a r.hash r.stored r.cp)) (intact : Intact s.file r) :
    getChunk a s r.hash = some r.chunk := by
  obtain ⟨positive, -⟩ := placed.length lawful
  have chunk : a.decode r.stored = some r.chunk := by
    rw [placed.stored]
    exact decode_encode lawful placed.call
  unfold getChunk
  rw [entry, Option.bind_eq_bind, Option.bind_some, if_neg (entryOf_ne placed lawful)]
  by_cases first : a.version = 0
  · have pos : entryOf a r.hash r.stored r.cp = r.cp + 4 + r.hash.length := by
      unfold entryOf
      rw [if_pos first, placed.pos lawful]
    rw [if_pos first, pos]
    dsimp only
    rw [readAt_length placed lawful intact, if_neg (by omega), Int.toNat_natCast, readAt_stored intact, chunk]
  · obtain ⟨npos, nlen⟩ := entryOf_words placed lawful first
    rw [if_neg first]
    dsimp only
    rw [npos, nlen, if_neg (by omega), if_neg (by rw [readable.resolve_left first]; decide), Int.toNat_natCast,
      readAt_stored intact, chunk]

theorem getChunk_unreadable {s : State} (unreadable : ¬ a.Readable) (hash : Bytes) : getChunk a s hash = none := by
  have later : a.version ≠ 0 := fun first => unreadable (.inl first)
  have remote : a.localData = false := Bool.eq_false_iff.mpr fun here => unreadable (.inr here)
  unfold getChunk
  cases s.map hash with
  | none => rfl
  | some pos =>
    rw [Option.bind_eq_bind, Option.bind_some, if_neg later]
    dsimp only
    rw [if_pos remote]
    split
    · rfl
    · split
      · rfl
      · rfl

/-! ### What calls leave -/

def Calls.live (s : Calls) : List Reserved := s.waiting ++ s.returned

def Apart (r r' : Reserved) : Prop := ∀ x, ¬ (r.covers x ∧ r'.covers x)

/-- The places of the records are apart, and they are the file from its offset on. -/
structure Tiled (a : Archive) (s : Calls) : Prop where
  apart : s.live.Pairwise Apart
  all : ∀ x : Int, (a.offset ≤ x ∧ x < s.archive.np) ↔ ∃ r ∈ s.live, r.covers x

structure Sound (a : Archive) (s : Calls) : Prop where
  tiled : Tiled a s
  /-- A call that returned has stored its chunk. -/
  reads : ∀ r ∈ s.returned, getChunk a s.archive r.hash = some r.chunk
  /-- Only a call that did not fail has an entry. -/
  known : ∀ hash, s.archive.map hash ≠ none → ∃ r ∈ s.live, r.hash = hash

structure Kept (a : Archive) (s : Calls) : Prop where
  tiled : Tiled a s
  placed : ∀ r ∈ s.live, Placed a r
  entry : ∀ r ∈ s.live, s.archive.map r.hash = some (entryOf a r.hash r.stored r.cp)
  known : ∀ hash, s.archive.map hash ≠ none → ∃ r ∈ s.live, r.hash = hash
  low : a.offset ≤ s.archive.np
  intact : ∀ r ∈ s.returned, Intact s.archive.file r

theorem Kept.sound (kept : Kept a s) (lawful : a.Lawful) (read : s.returned ≠ [] → a.Readable) : Sound a s := by
  refine ⟨kept.tiled, fun r member => ?_, kept.known⟩
  have live : r ∈ s.live := List.mem_append_right _ member
  exact getChunk_intact (kept.placed r live) lawful (read (List.ne_nil_of_mem member)) (kept.entry r live)
    (kept.intact r member)

/-- A call fails and has changed nothing but that the archive may not take more, or it gets the place at the
end, for a hash without an entry. -/
theorem reserve_cases (a : Archive) (s : State) (hash chunk : Bytes) (found : Found) :
    (∃ writeable e, reserve a s hash chunk found = ({ s with writeable := writeable }, .error e)) ∨
    ∃ r, r = ⟨hash, chunk, a.encode chunk, s.np⟩ ∧ s.np < a.blocksz ∧ s.map hash = none ∧
      reserve a s hash chunk found = ({ s with
        np := s.np + r.bytes.length
        map := Function.update s.map hash (some (entryOf a hash (a.encode chunk) s.np))
        currentSize := s.currentSize + 1 }, .ok r) := by
  unfold reserve
  dsimp only
  by_cases uploading : found.uploading = true
  · rw [if_pos uploading]
    exact .inl ⟨s.writeable, _, rfl⟩
  rw [if_neg uploading]
  by_cases closed : s.writeable = false
  · rw [if_pos closed]
    exact .inl ⟨s.writeable, _, rfl⟩
  rw [if_neg closed]
  by_cases full : a.blocksz ≤ s.np
  · rw [if_pos full]
    exact .inl ⟨false, _, rfl⟩
  rw [if_neg full]
  by_cases noMap : found.noMap = true
  · rw [if_pos noMap]
    exact .inl ⟨s.writeable, _, rfl⟩
  rw [if_neg noMap]
  by_cases many : a.wMaxSz ≤ s.currentSize
  · rw [if_pos many]
    exact .inl ⟨false, _, rfl⟩
  rw [if_neg many]
  by_cases noFile : found.noFile = true
  · rw [if_pos noFile]
    exact .inl ⟨s.writeable, _, rfl⟩
  rw [if_neg noFile]
  cases found.map with
  | illegalState => exact .inl ⟨false, _, rfl⟩
  | closed => exact .inl ⟨false, _, rfl⟩
  | fails => exact .inl ⟨s.writeable, _, rfl⟩
  | works =>
    dsimp only
    cases entry : s.map hash with
    | some pos => exact .inl ⟨s.writeable, _, rfl⟩
    | none =>
      refine .inr ⟨_, rfl, Int.not_le.mp full, rfl, ?_⟩
      rw [Reserved.length_bytes]
      have length : s.np + ((4 + hash.length + 4 + (a.encode chunk).length : Nat) : Int) =
          s.np + 4 + hash.length + 4 + (a.encode chunk).length := by omega
      rw [length]
      rfl

/-! ### Steps -/

/-- The calls that can be made, and the writes that can be made now. -/
def Possible (a : Archive) (s : Calls) : Event → Prop
  | .reserve hash chunk _ => Call a hash chunk
  | .write r => r ∈ s.waiting
  | .writeFails r _ => r ∈ s.waiting

theorem apart_symm {r r' : Reserved} (apart : Apart r r') : Apart r' r := fun x both => apart x both.symm

theorem live_write {r : Reserved} (member : r ∈ s.waiting) : (s.waiting.erase r ++ r :: s.returned).Perm s.live :=
  List.perm_middle.trans ((List.perm_cons_erase member).symm.append_right s.returned)

theorem writeOut_file {s : State} {n : Nat} {x : Int} (outside : ¬ r.covers x) : (writeOut s r n).file x = s.file x := by
  have taken : (r.bytes.take n).length ≤ r.bytes.length := by
    rw [List.length_take]
    exact Nat.min_le_right _ _
  have uncovered : ¬ Write.covers ⟨r.bytes.take n, r.cp⟩ x = true := by
    rw [Write.covers_iff]
    rintro ⟨low, high⟩
    dsimp only at low high
    exact outside ⟨low, by omega⟩
  have file : (writeOut s r n).file x = written s.file ⟨r.bytes.take n, r.cp⟩ x := rfl
  rw [file, written, patch, if_neg uncovered]

theorem writeOut_intact (s : State) (r : Reserved) : Intact (writeOut s r r.bytes.length).file r := by
  intro x inside
  have covered : Write.covers ⟨r.bytes, r.cp⟩ x = true := Write.covers_iff.mpr inside
  have file : (writeOut s r r.bytes.length).file x = written s.file ⟨r.bytes.take r.bytes.length, r.cp⟩ x := rfl
  rw [file, List.take_length, written, patch, if_pos covered]
  exact (Write.byteAt_of_covers covered).symm

theorem Tiled.append (tiled : Tiled a s) (low : a.offset ≤ s.archive.np) {s' : Calls} (live : s'.live = r :: s.live)
    (at_ : r.cp = s.archive.np) (np : s'.archive.np = s.archive.np + r.bytes.length) : Tiled a s' := by
  have place : ∀ x, r.covers x ↔ s.archive.np ≤ x ∧ x < s'.archive.np := by
    intro x
    rw [np, ← at_]
    rfl
  constructor
  case apart =>
    rw [live]
    refine List.pairwise_cons.mpr ⟨fun r' member x both => ?_, tiled.apart⟩
    have before := ((tiled.all x).mpr ⟨r', member, both.2⟩).2
    have after := ((place x).mp both.1).1
    omega
  case all =>
    intro x
    have old := tiled.all x
    rw [live]
    constructor
    · intro inside
      by_cases before : x < s.archive.np
      · obtain ⟨r', member, covered⟩ := old.mp ⟨inside.1, before⟩
        exact ⟨r', List.mem_cons_of_mem r member, covered⟩
      · exact ⟨r, List.mem_cons_self, (place x).mpr ⟨by omega, inside.2⟩⟩
    · rintro ⟨r', member, covered⟩
      rcases List.mem_cons.mp member with rfl | earlier
      · have inside := (place x).mp covered
        omega
      · have inside := old.mpr ⟨r', earlier, covered⟩
        omega

theorem Kept.reserve (kept : Kept a s) {found : Found} (call : Call a hash chunk) :
    Kept a (step a s (.reserve hash chunk found)) := by
  rw [step]
  rcases reserve_cases a s.archive hash chunk found with ⟨writeable, e, result⟩ | ⟨r, record, room, fresh, result⟩
  · rw [result]
    exact ⟨⟨kept.tiled.apart, kept.tiled.all⟩, kept.placed, kept.entry, kept.known, kept.low, kept.intact⟩
  · rw [result]
    have low := kept.low
    have placed : Placed a r := by
      subst record
      exact ⟨call, rfl, by dsimp only; omega, room⟩
    have others : ∀ r' ∈ s.live, r'.hash ≠ hash := by
      intro r' member same
      have entry := kept.entry r' member
      rw [same, fresh] at entry
      cases entry
    refine ⟨kept.tiled.append low rfl (congrArg Reserved.cp record) rfl, ?_, ?_, fun h present => ?_, ?_, kept.intact⟩
    · intro r' member
      rcases List.mem_cons.mp member with rfl | earlier
      · exact placed
      · exact kept.placed r' earlier
    · intro r' member
      dsimp only
      rcases List.mem_cons.mp member with rfl | earlier
      · rw [record]
        exact Function.update_self _ _ _
      · rw [Function.update_of_ne (others r' earlier)]
        exact kept.entry r' earlier
    · by_cases same : h = hash
      · refine ⟨r, List.mem_cons_self, ?_⟩
        rw [record, same]
      · dsimp only at present
        rw [Function.update_of_ne same] at present
        obtain ⟨r', member, known⟩ := kept.known h present
        exact ⟨r', List.mem_cons_of_mem r member, known⟩
    · dsimp only
      omega

theorem Kept.write (kept : Kept a s) (member : r ∈ s.waiting) : Kept a (step a s (.write r)) := by
  have live := live_write member
  have memberOf : ∀ r', r' ∈ (step a s (.write r)).live ↔ r' ∈ s.live := fun r' => live.mem_iff
  refine ⟨⟨(live.pairwise_iff fun apart => apart_symm apart).mpr kept.tiled.apart, fun x => ?_⟩, ?_, ?_, ?_, kept.low, ?_⟩
  · refine (kept.tiled.all x).trans (exists_congr fun r' => and_congr_left fun _ => ?_)
    exact (memberOf r').symm
  · exact fun r' there => kept.placed r' ((memberOf r').mp there)
  · exact fun r' there => kept.entry r' ((memberOf r').mp there)
  · intro h present
    obtain ⟨r', there, known⟩ := kept.known h present
    exact ⟨r', (memberOf r').mpr there, known⟩
  · intro r' there
    rcases List.mem_cons.mp there with rfl | earlier
    · exact writeOut_intact s.archive r'
    · have apart : Apart r r' := (List.pairwise_append.mp kept.tiled.apart).2.2 r member r' earlier
      intro x inside
      rw [← kept.intact r' earlier x inside]
      exact writeOut_file fun covered => apart x ⟨covered, inside⟩

/-! ### Every run -/

/-- A call that ends in an exception leaves the end of the records, the entries and the chunks. -/
def Leaves (a : Archive) (s : Calls) : Event → Prop
  | .reserve hash chunk found => ∀ s' e, reserve a s.archive hash chunk found = (s', .error e) →
    s'.np = s.archive.np ∧ s'.map = s.archive.map ∧ ∀ h, getChunk a s' h = getChunk a s.archive h
  | .write _ => True
  | .writeFails r n => (step a s (.writeFails r n)).archive.map r.hash = none

structure Right (a : Archive) (s : Calls) (e : Event) : Prop where
  sound : Sound a (step a s e)
  leaves : Leaves a s e

/-- No write fails, and what is written can be read. -/
def Meets (a : Archive) : Event → Prop
  | .reserve _ _ _ => True
  | .write _ => a.Readable
  | .writeFails _ _ => False

/-- Interleavings of calls in which every step meets the condition. -/
inductive Run (a : Archive) : Calls → Prop
  | new : Run a (.new a)
  | step {s e} : Run a s → Possible a s e → Meets a e → Run a (step a s e)

theorem new_kept (a : Archive) : Kept a (.new a) := by
  constructor
  · refine ⟨List.Pairwise.nil, fun x => ⟨fun inside => ?_, fun ⟨r, member, _⟩ => (nomatch member)⟩⟩
    exact absurd inside.2 (Int.not_lt.mpr inside.1)
  · exact fun r member => nomatch member
  · exact fun r member => nomatch member
  · exact fun h present => absurd rfl present
  · exact Int.le_refl _
  · exact fun r member => nomatch member

theorem run_kept (run : Run a s) : Kept a s ∧ (s.returned ≠ [] → a.Readable) := by
  induction run with
  | new => exact ⟨new_kept a, fun some_returned => absurd rfl some_returned⟩
  | @step s e _ possible meets ih =>
    obtain ⟨kept, read⟩ := ih
    cases e with
    | reserve hash chunk found =>
      refine ⟨kept.reserve possible, fun some_returned => read fun none_returned => some_returned ?_⟩
      rw [step]
      split
      · exact none_returned
      · exact none_returned
    | write r => exact ⟨kept.write possible, fun _ => meets⟩
    | writeFails r n => exact meets.elim

theorem reserve_leaves (s : Calls) (hash chunk : Bytes) (found : Found) : Leaves a s (.reserve hash chunk found) := by
  intro s' e result
  rcases reserve_cases a s.archive hash chunk found with ⟨writeable, e', failed⟩ | ⟨r, -, -, -, worked⟩
  · rw [failed] at result
    rw [← (Prod.mk.inj result).1]
    exact ⟨rfl, rfl, fun _ => rfl⟩
  · rw [worked] at result
    cases (Prod.mk.inj result).2

theorem right_iff (lawful : a.Lawful) (kept : Kept a s) (read : s.returned ≠ [] → a.Readable) {e : Event}
    (possible : Possible a s e) : Right a s e ↔ Meets a e := by
  cases e with
  | reserve hash chunk found =>
    refine iff_of_true ⟨?_, reserve_leaves s hash chunk found⟩ trivial
    refine (kept.reserve possible).sound lawful fun some_returned => read fun none_returned => some_returned ?_
    rw [step]
    split
    · exact none_returned
    · exact none_returned
  | write r =>
    constructor
    · intro right
      by_contra unreadable
      have chunk := right.sound.reads r List.mem_cons_self
      rw [getChunk_unreadable unreadable] at chunk
      cases chunk
    · exact fun readable => ⟨(kept.write possible).sound lawful fun _ => readable, trivial⟩
  | writeFails r n =>
    refine iff_of_false (fun right => ?_) id
    have entry := kept.entry r (List.mem_append_left _ possible)
    have gone : s.archive.map r.hash = none := right.leaves
    rw [gone] at entry
    cases entry

/-- In every interleaving whose steps meet the condition the archive is sound, and the next step keeps it so and
leaves nothing behind if and only if it meets the condition too. -/
theorem records_right_iff (lawful : a.Lawful) (run : Run a s) :
    Sound a s ∧ ∀ e, Possible a s e → (Right a s e ↔ Meets a e) := by
  obtain ⟨kept, read⟩ := run_kept run
  exact ⟨kept.sound lawful read, fun e => right_iff lawful kept read⟩

/-! ### A small archive -/

def smallArchive (version : Nat) : Archive where
  version := version
  localData := false
  blocksz := 1024 * 1024
  wMaxSz := 100
  hashLength := 2
  iv := List.replicate 16 5
  compress := false
  chunkStoreEncryptionEnabled := false
  compressLz4 chunk := chunk
  decompressLz4 ub _ := some ub
  encryptCBC b := 16 :: b
  decryptCBC b := some b.tail

theorem smallArchive_lawful (version : Nat) : (smallArchive version).Lawful :=
  ⟨fun _ => rfl, fun _ => rfl, fun _ => List.cons_ne_nil _ _, show 1024 * 1024 + 4 + 2 < 2 ^ 31 by decide⟩

def found : Found := ⟨false, false, false, .works⟩

def oneReserved (version : Nat) : Calls :=
  step (smallArchive version) (.new (smallArchive version)) (.reserve [1, 2] [3, 4, 5] found)

theorem oneReserved_call (version : Nat) : Call (smallArchive version) [1, 2] [3, 4, 5] :=
  ⟨rfl, List.cons_ne_nil _ _, by decide, show (toBE32 (-1) ++ [3, 4, 5]).length < 2 ^ 31 by decide⟩

theorem run_oneReserved (version : Nat) : Run (smallArchive version) (oneReserved version) :=
  .step .new (oneReserved_call version) trivial

theorem records_right_iff_oneReserved : Sound (smallArchive 0) (oneReserved 0) ∧
    ∀ e, Possible (smallArchive 0) (oneReserved 0) e →
      (Right (smallArchive 0) (oneReserved 0) e ↔ Meets (smallArchive 0) e) :=
  records_right_iff (smallArchive_lawful 0) (run_oneReserved 0)

/-- A write that fails, and one to an archive of version 1 whose data is not local. -/
theorem oneReserved_not_right :
    (∃ r, Possible (smallArchive 0) (oneReserved 0) (.writeFails r 0) ∧
      ¬ Right (smallArchive 0) (oneReserved 0) (.writeFails r 0)) ∧
    ∃ r, Possible (smallArchive 1) (oneReserved 1) (.write r) ∧ ¬ Right (smallArchive 1) (oneReserved 1) (.write r) := by
  have unreadable : ¬ (smallArchive 1).Readable := fun readable => readable.elim (fun first => nomatch first)
    fun here => nomatch here
  refine ⟨⟨⟨[1, 2], [3, 4, 5], [255, 255, 255, 255, 3, 4, 5], 0⟩, ?_, fun right => ?_⟩,
    ⟨[1, 2], [3, 4, 5], [255, 255, 255, 255, 3, 4, 5], 1024⟩, ?_, fun right => ?_⟩
  · exact List.mem_singleton.mpr (by decide)
  · have gone : (oneReserved 0).archive.map [1, 2] = none := right.leaves
    exact absurd gone (by decide)
  · exact List.mem_singleton.mpr (by decide)
  · have chunk := right.sound.reads _ List.mem_cons_self
    rw [getChunk_unreadable unreadable] at chunk
    cases chunk

end EncryptedDedup.SDFS.HashBlobArchive
