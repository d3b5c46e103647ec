import EncryptedDedup.SDFS.DedupFileChannel

/-!
# The file of a channel is a flat array

What the calls of a channel do to a file that is one array of bytes, and that the two loops of
`DedupFileChannel` do it.
-/

namespace EncryptedDedup.SDFS.DedupFileChannel

variable {C : ChunkLength}

/-! ### Where a piece lies -/

theorem chuckPosition_dvd (C : ChunkLength) (x : Int) : (C.val : Int) ∣ getChuckPosition C x :=
  Int.dvd_mul_left _ _

theorem startPos_eq (C : ChunkLength) (x : Int) :
    int (x - getChuckPosition C x) = x - getChuckPosition C x ∧ x - getChuckPosition C x < C.val := by
  have split := Int.tmod_add_tdiv_mul x C.val
  have size := C.pos
  have small := C.lt
  have high := Int.tmod_lt_of_pos x (b := C.val) (by omega)
  have low := Int.lt_tmod_of_pos x (b := C.val) (by omega)
  have start : x - getChuckPosition C x = x.tmod C.val := by
    unfold getChuckPosition
    omega
  rw [start]
  exact ⟨int_eq (by omega) (by omega), high⟩

theorem pieceLength_bounds {startPos bytesLeft : Int} (below : startPos < C.val) (positive : 0 < bytesLeft) :
    0 < pieceLength C startPos bytesLeft ∧ pieceLength C startPos bytesLeft ≤ bytesLeft ∧
      startPos + pieceLength C startPos bytesLeft ≤ C.val := by
  unfold pieceLength
  split <;> omega

def bytes (file : DedupFile C) : Int → Option UInt8 := fun x => some (file.writeBuffers.byte x)

/-! ### The caller's buffer -/

/-- `n` bytes, which are zero where `a` has none. -/
def pad (a : Bytes) (n : Nat) : Bytes := a.take n ++ List.replicate (n - a.length) 0

def ahead (buf : ByteBuffer) : Bytes := buf.array.drop buf.position

@[simp] theorem length_pad (a : Bytes) (n : Nat) : (pad a n).length = n := by
  simp only [pad, List.length_append, List.length_take, List.length_replicate]
  omega

@[simp] theorem pad_zero (a : Bytes) : pad a 0 = [] := by
  simp [pad]

theorem pad_add (a : Bytes) (m n : Nat) : pad a (m + n) = pad a m ++ pad (a.drop m) n := by
  unfold pad
  by_cases long : m ≤ a.length
  · have zeros : m + n - a.length = n - (a.length - m) := by omega
    rw [List.take_add, Nat.sub_eq_zero_of_le long, List.replicate_zero, List.append_nil, List.length_drop, zeros,
      List.append_assoc]
  · have zeros : m + n - a.length = m - a.length + n := by omega
    rw [List.take_of_length_le (by omega), List.take_of_length_le (by omega), List.drop_eq_nil_of_le (by omega),
      List.take_nil, List.nil_append, List.length_nil, Nat.sub_zero, zeros, List.append_assoc,
      List.replicate_append_replicate]

theorem getOrPad_eq (buf : ByteBuffer) (n : Nat) :
    (getOrPad buf n).1 = pad (ahead buf) n ∧ ahead (getOrPad buf n).2 = (ahead buf).drop n := by
  unfold getOrPad ByteBuffer.get
  by_cases full : buf.position + n ≤ buf.array.length
  · have none_left : n - (buf.array.length - buf.position) = 0 := by omega
    rw [if_pos full, pad, ahead, ahead, List.length_drop, none_left, List.replicate_zero, List.append_nil,
      List.drop_drop]
    exact ⟨rfl, rfl⟩
  · have short : (ahead buf).length ≤ n := by
      rw [ahead, List.length_drop]
      omega
    have rest : slice buf.array buf.position buf.remaining = ahead buf := by
      apply List.take_of_length_le
      rw [List.length_drop, ByteBuffer.remaining]
    rw [if_neg full, pad, List.take_of_length_le short, List.drop_eq_nil_of_le short, rest]
    exact ⟨rfl, List.drop_length⟩

/-! ### Writing -/

structure WriteStep (s t : Writing C) (p : ChunkPiece) : Prop where
  within : p.Within C.val
  next : p.base + p.start = s.cp
  len_le : p.bytes.length ≤ s.bytesLeft
  taken : p.bytes = pad (ahead s.buf) p.bytes.length
  buf : ahead t.buf = (ahead s.buf).drop p.bytes.length
  cp : t.cp = s.cp + p.bytes.length
  bytesLeft : t.bytesLeft = s.bytesLeft - p.bytes.length
  pieces : t.pieces = s.pieces ++ [p]
  canWrite : t.file.canWrite = s.file.canWrite
  length : t.file.length = max s.file.length t.cp
  bytes : bytes t.file = written (bytes s.file) ⟨p.bytes, s.cp⟩

theorem writeBody_step {s t : Writing C} (left : 0 < s.bytesLeft) (low : -2 ^ 63 ≤ s.cp)
    (high : s.cp + s.bytesLeft < 2 ^ 63) (done : writeBody s = some t) : ∃ p, WriteStep s t p := by
  obtain ⟨start, below⟩ := startPos_eq C s.cp
  unfold writeBody at done
  dsimp only at done
  rw [start] at done
  obtain ⟨len_pos, len_le, -⟩ := pieceLength_bounds below left
  generalize pieceLength C (s.cp - getChuckPosition C s.cp) s.bytesLeft = len at done len_pos len_le
  obtain ⟨taken, rest⟩ := getOrPad_eq s.buf len.toNat
  obtain ⟨buffers, stored, same⟩ := Option.bind_eq_some_iff.mp done
  rw [taken] at stored same
  have size : ((pad (ahead s.buf) len.toNat).length : Int) = len := by
    rw [length_pad]
    omega
  obtain ⟨fits, inside⟩ := Chunked.put_fits stored
  have flat := Chunked.byte_put C.pos (chuckPosition_dvd C s.cp) stored
  have base : getChuckPosition C s.cp + (s.cp - getChuckPosition C s.cp) = s.cp := by omega
  rw [base] at flat
  rw [long_eq (by omega) (by omega)] at same
  obtain rfl := Option.some.inj same
  refine ⟨⟨getChuckPosition C s.cp, s.cp - getChuckPosition C s.cp, pad (ahead s.buf) len.toNat⟩,
    ⟨chuckPosition_dvd C s.cp, fits, ?_, inside⟩, base, ?_, ?_, ?_, ?_, ?_, rfl, rfl, ?_, flat⟩
  · rw [length_pad]
    omega
  · rw [size]
    exact len_le
  · rw [length_pad]
  · rw [length_pad]
    exact rest
  · rw [size]
  · rw [size]
  · dsimp only
    split <;> omega

/-- What the loop has done after some of its iterations. -/
structure Writes (file : DedupFile C) (buf : ByteBuffer) (offset len : Int) (s : Writing C) : Prop where
  tiles : Tiles C.val offset s.pieces s.cp
  left : s.cp + s.bytesLeft = offset + len
  nonneg : 0 ≤ s.bytesLeft
  sent : joined s.pieces ++ pad (ahead s.buf) s.bytesLeft.toNat = pad (ahead buf) len.toNat
  canWrite : s.file.canWrite = file.canWrite
  length : s.file.length = if offset < s.cp then max file.length s.cp else file.length
  bytes : bytes s.file = written (bytes file) ⟨joined s.pieces, offset⟩

variable {file : DedupFile C} {buf : ByteBuffer} {offset len : Int}

theorem Writes.start (positive : 0 ≤ len) : Writes file buf offset len ⟨file, buf, offset, len, []⟩ where
  tiles := rfl
  left := rfl
  nonneg := positive
  sent := List.nil_append _
  canWrite := rfl
  length := (if_neg (Int.lt_irrefl offset)).symm
  bytes := (written_empty (DedupFileChannel.bytes file) offset).symm

theorem Writes.next (low : -2 ^ 63 ≤ offset) (high : offset + len < 2 ^ 63) {s t : Writing C}
    (before : Writes file buf offset len s) (left : 0 < s.bytesLeft) (done : writeBody s = some t) :
    Writes file buf offset len t := by
  have far := before.tiles.length
  have total := before.left
  obtain ⟨p, step⟩ := writeBody_step left (by omega) (by omega) done
  have taken := step.len_le
  have positive := step.within.2.2.1
  have here : offset + (joined s.pieces).length = s.cp := far
  constructor
  · rw [step.pieces, step.cp]
    exact before.tiles.concat step.within step.next
  · rw [step.cp, step.bytesLeft]
    omega
  · rw [step.bytesLeft]
    omega
  · have parts : s.bytesLeft.toNat = p.bytes.length + (s.bytesLeft - p.bytes.length).toNat := by omega
    rw [← before.sent, step.pieces, joined_concat, step.buf, step.bytesLeft, parts, pad_add, ← step.taken,
      List.append_assoc]
  · exact step.canWrite.trans before.canWrite
  · have length := before.length
    have moved := step.cp
    rw [step.length, if_pos (by omega), length]
    split <;> omega
  · rw [step.bytes, before.bytes, ← here, written_append, step.pieces, joined_concat]

/-- A call that returns has written `len` bytes of the caller's buffer, if `len` is positive. -/
theorem writeFile_eq {pos : Int} (low : -2 ^ 63 ≤ offset) (high : offset + len < 2 ^ 63) {file' : DedupFile C}
    {pieces : List ChunkPiece} (done : writeFile file buf len pos offset = some (file', pieces)) :
    0 ≤ pos ∧ pos ≤ buf.array.length ∧ Tiles C.val offset pieces (offset + max 0 len) ∧
      joined pieces = pad (buf.array.drop pos.toNat) len.toNat ∧ file'.canWrite = file.canWrite ∧
      file'.length = (if 0 < len then max file.length (offset + len) else file.length) ∧
      bytes file' = written (bytes file) ⟨joined pieces, offset⟩ := by
  unfold writeFile at done
  obtain ⟨-, -, done⟩ := Option.bind_eq_some_iff.mp done
  obtain ⟨placed, sought, done⟩ := Option.bind_eq_some_iff.mp done
  obtain ⟨s, ended, done⟩ := Option.bind_eq_some_iff.mp done
  obtain ⟨rfl, rfl⟩ := Prod.mk.inj (Option.some.inj done)
  unfold ByteBuffer.seek at sought
  split at sought
  · rename_i range
    obtain rfl := Option.some.inj sought
    refine ⟨range.1, range.2, ?_⟩
    obtain ⟨n, -, tested, stopped⟩ := (writeLoop C).run_finished (Outcome.finished_of_result ended)
    have spent : ¬ 0 < s.bytesLeft := of_decide_eq_false stopped
    by_cases positive : 0 < len
    · have first : Writes file ⟨buf.array, pos.toNat⟩ offset len ⟨file, ⟨buf.array, pos.toNat⟩, offset, len, []⟩ :=
        .start positive.le
      have writes := Loop.invariant _ first (fun t u before left moved =>
        before.next low high (of_decide_eq_true left) moved) tested
      have total := writes.left
      have nonneg := writes.nonneg
      have reached : s.cp = offset + len := by omega
      have sent := writes.sent
      have length := writes.length
      rw [show s.bytesLeft.toNat = 0 by omega, pad_zero, List.append_nil] at sent
      rw [reached, if_pos (by omega)] at length
      rw [if_pos positive, max_eq_right positive.le, ← reached]
      exact ⟨writes.tiles, sent, writes.canWrite, reached ▸ length, writes.bytes⟩
    · have idle : s = ⟨file, ⟨buf.array, pos.toNat⟩, offset, len, []⟩ := tested.idle (decide_eq_false positive)
      rw [idle, if_neg positive, max_eq_left (not_lt.mp positive), show len.toNat = 0 by omega, pad_zero]
      exact ⟨(Int.add_zero offset).symm, rfl, rfl, rfl, (written_empty (bytes file) offset).symm⟩
  · cases sought

/-! ### Reading -/

/-- The caller's buffer with bytes put from its position on, as many as it has room for. -/
def filled (buf : ByteBuffer) (b : Bytes) : ByteBuffer :=
  ⟨overwrite buf.array buf.position (b.take buf.remaining), buf.position + (b.take buf.remaining).length⟩

theorem put_filled {buf : ByteBuffer} {b : Bytes} (fits : buf.position + b.length ≤ buf.array.length) :
    buf.put b = some (filled buf b) := by
  have room : b.length ≤ buf.remaining := by
    unfold ByteBuffer.remaining
    omega
  rw [ByteBuffer.put, if_pos fits, filled, List.take_of_length_le room]

theorem putOrCut_eq {buf : ByteBuffer} (valid : buf.position ≤ buf.array.length) (b : Bytes) :
    putOrCut buf b = some (filled buf b) := by
  unfold putOrCut
  dsimp only
  split
  · rename_i short
    have length : (b.take buf.remaining).length = buf.remaining := List.length_take_of_le short.le
    have part : slice b (0 : Int).toNat (buf.remaining : Int).toNat = b.take buf.remaining := rfl
    have whole : filled buf (b.take buf.remaining) = filled buf b := by
      rw [filled, filled, List.take_take, Nat.min_self]
    rw [ByteBuffer.putPart, if_pos (by omega), part, put_filled, whole]
    rw [length, ByteBuffer.remaining]
    omega
  · rename_i room
    exact put_filled (by unfold ByteBuffer.remaining at room; omega)

theorem filled_nil (buf : ByteBuffer) : filled buf [] = buf := by
  rw [filled, List.take_nil, overwrite, List.append_nil, List.length_nil, Nat.add_zero, List.take_append_drop]

theorem filled_valid {buf : ByteBuffer} (valid : buf.position ≤ buf.array.length) (b : Bytes) :
    (filled buf b).position ≤ (filled buf b).array.length := by
  have room : (b.take buf.remaining).length ≤ buf.remaining := List.length_take_le _ _
  unfold ByteBuffer.remaining at room
  unfold filled
  dsimp only
  rw [length_overwrite (by unfold ByteBuffer.remaining; omega)]
  unfold ByteBuffer.remaining
  omega

theorem filled_filled {buf : ByteBuffer} (valid : buf.position ≤ buf.array.length) (a b : Bytes) :
    filled (filled buf a) b = filled buf (a ++ b) := by
  have taken : (a.take buf.remaining).length = min buf.remaining a.length := List.length_take
  have room : buf.position + (a.take buf.remaining).length ≤ buf.array.length := by
    unfold ByteBuffer.remaining at taken ⊢
    omega
  have left : (filled buf a).remaining = buf.remaining - a.length := by
    have length : (filled buf a).array.length = buf.array.length := length_overwrite room
    have position : (filled buf a).position = buf.position + (a.take buf.remaining).length := rfl
    rw [ByteBuffer.remaining, length, position, taken]
    unfold ByteBuffer.remaining
    omega
  have both : (a ++ b).take buf.remaining = a.take buf.remaining ++ b.take (filled buf a).remaining := by
    rw [left, List.take_append]
  have space : (b.take (filled buf a).remaining).length ≤ buf.remaining - a.length := left ▸ List.length_take_le _ _
  have fits : buf.position + (a.take buf.remaining).length + (b.take (filled buf a).remaining).length ≤
      buf.array.length := by
    unfold ByteBuffer.remaining at taken space ⊢
    omega
  have result : filled buf (a ++ b) = ⟨overwrite buf.array buf.position (a.take buf.remaining ++ b.take (filled buf a).remaining),
      buf.position + (a.take buf.remaining ++ b.take (filled buf a).remaining).length⟩ := by
    rw [filled, both]
  rw [result, List.length_append, ← Nat.add_assoc, ← overwrite_overwrite fits]
  rfl

structure ReadStep (file : DedupFile C) (s t : Reading) (p : ChunkPiece) : Prop where
  within : p.Within C.val
  next : p.base + p.start = s.currentLocation
  len_le : p.bytes.length ≤ s.bytesLeft
  found : ∀ i : Int, 0 ≤ i → i < p.bytes.length → byteAt p.bytes i = bytes file (s.currentLocation + i)
  buf : t.buf = filled s.buf p.bytes
  currentLocation : t.currentLocation = s.currentLocation + p.bytes.length
  bytesLeft : t.bytesLeft = s.bytesLeft - p.bytes.length
  read : t.read = s.read + p.bytes.length
  returned : t.returned = decide (t.currentLocation = file.length)
  pieces : t.pieces = s.pieces ++ [p]

theorem readBody_step {file : DedupFile C} {s t : Reading} (left : 0 < s.bytesLeft) (low : -2 ^ 63 ≤ s.currentLocation)
    (high : s.currentLocation + s.bytesLeft < 2 ^ 63) (valid : s.buf.position ≤ s.buf.array.length)
    (done : readBody file s = some t) : ∃ p, ReadStep file s t p := by
  obtain ⟨start, below⟩ := startPos_eq C s.currentLocation
  unfold readBody at done
  dsimp only at done
  rw [start] at done
  obtain ⟨len_pos, len_le, inside⟩ := pieceLength_bounds below left
  generalize pieceLength C (s.currentLocation - getChuckPosition C s.currentLocation) s.bytesLeft = len
    at done len_pos len_le inside
  obtain ⟨rb, got, done⟩ := Option.bind_eq_some_iff.mp done
  obtain ⟨size, found⟩ := Chunked.get_byte (chuckPosition_dvd C s.currentLocation) got
  have base : getChuckPosition C s.currentLocation +
      (s.currentLocation - getChuckPosition C s.currentLocation) = s.currentLocation := by omega
  rw [base] at found
  rw [putOrCut_eq valid, long_eq (by omega) (by omega)] at done
  obtain rfl := Option.some.inj done
  refine ⟨⟨getChuckPosition C s.currentLocation, s.currentLocation - getChuckPosition C s.currentLocation, rb⟩,
    ⟨chuckPosition_dvd C s.currentLocation, (Chunked.get_fits got).1, ?_, ?_⟩, base, ?_, ?_, rfl, ?_, ?_, ?_, rfl, rfl⟩
  · dsimp only
    omega
  · rw [size]
    exact inside
  · rw [size]
    exact len_le
  · intro i first last
    exact found i first (last.trans_eq size)
  · rw [size]
  · rw [size]
  · rw [size]

/-- What the loop has read after some of its iterations. -/
structure Reads (file : DedupFile C) (buf : ByteBuffer) (filePos n : Int) (s : Reading) : Prop where
  tiles : Tiles C.val filePos s.pieces s.currentLocation
  left : s.currentLocation + s.bytesLeft = filePos + n
  nonneg : 0 ≤ s.bytesLeft
  read : s.read = n - s.bytesLeft
  found : ∀ i : Int, 0 ≤ i → i < (joined s.pieces).length → byteAt (joined s.pieces) i = bytes file (filePos + i)
  buf : s.buf = filled buf (joined s.pieces)
  returned : s.returned = true → s.currentLocation = file.length

variable {filePos n : Int}

theorem Reads.start (positive : 0 ≤ n) : Reads file buf filePos n ⟨buf, filePos, n, 0, false, []⟩ where
  tiles := rfl
  left := rfl
  nonneg := positive
  read := (Int.sub_self n).symm
  found i low high := absurd high (by simp [joined]; omega)
  buf := (filled_nil buf).symm
  returned := nofun

theorem Reads.next (low : -2 ^ 63 ≤ filePos) (high : filePos + n < 2 ^ 63)
    (valid : buf.position ≤ buf.array.length) {s t : Reading} (before : Reads file buf filePos n s)
    (left : 0 < s.bytesLeft) (done : readBody file s = some t) : Reads file buf filePos n t := by
  have far := before.tiles.length
  have total := before.left
  obtain ⟨p, step⟩ := readBody_step left (by omega) (by omega) (before.buf ▸ filled_valid valid _) done
  have taken := step.len_le
  constructor
  · rw [step.pieces, step.currentLocation]
    exact before.tiles.concat step.within step.next
  · rw [step.currentLocation, step.bytesLeft]
    omega
  · rw [step.bytesLeft]
    omega
  · rw [step.read, step.bytesLeft, before.read]
    omega
  · intro i first last
    rw [step.pieces, joined_concat, List.length_append] at last
    rw [step.pieces, joined_concat, byteAt_append]
    split
    · rename_i earlier
      exact before.found i first earlier
    · have here : s.currentLocation + (i - (joined s.pieces).length) = filePos + i := by omega
      rw [step.found _ (by omega) (by omega), here]
  · rw [step.buf, before.buf, filled_filled valid, step.pieces, joined_concat]
  · intro returned
    rw [step.returned] at returned
    exact of_decide_eq_true returned

theorem available {siz length : Int} (small : siz < 2 ^ 31) (before : filePos < length) :
    (if siz + filePos > length then int (length - filePos) else siz) = min siz (length - filePos) := by
  split
  · rw [int_eq (by omega) (by omega)]
    omega
  · omega

/-- A call in front of the end of the file reads what there is of the `siz` bytes. -/
theorem read_eq {bufPos siz : Int} (small : siz < 2 ^ 31) (low : -2 ^ 63 ≤ filePos) (low' : -2 ^ 63 ≤ filePos + siz)
    (high : filePos + siz < 2 ^ 63) {file' : DedupFile C} {ret : Int} {buf' : ByteBuffer} {pieces : List ChunkPiece}
    (before : filePos < file.length)
    (done : read false file buf bufPos siz filePos = some (file', ret, buf', pieces)) :
    0 ≤ bufPos ∧ bufPos ≤ buf.array.length ∧ file' = file ∧ ret = max 0 (min siz (file.length - filePos)) ∧
      Tiles C.val filePos pieces (filePos + ret) ∧ buf' = filled ⟨buf.array, bufPos.toNat⟩ (joined pieces) ∧
      ∀ i, 0 ≤ i → i < ret → byteAt (joined pieces) i = bytes file (filePos + i) := by
  unfold read at done
  rw [if_neg (fun both => absurd both.1 (by omega)), long_eq (by omega) (by omega)] at done
  obtain ⟨placed, sought, done⟩ := Option.bind_eq_some_iff.mp done
  have kept : ¬ ((false : Bool) = true ∧ siz + filePos > file.length) := nofun
  dsimp only at done
  rw [if_neg kept, available small before] at done
  obtain ⟨s, ended, done⟩ := Option.bind_eq_some_iff.mp done
  cases Option.some.inj done
  unfold ByteBuffer.seek at sought
  split at sought
  · rename_i range
    obtain rfl := Option.some.inj sought
    refine ⟨range.1, range.2, rfl, ?_⟩
    have valid : bufPos.toNat ≤ buf.array.length := by omega
    obtain ⟨count, -, tested, stopped⟩ := (readLoop file).run_finished (Outcome.finished_of_result ended)
    by_cases positive : 0 < siz
    · have first : Reads file ⟨buf.array, bufPos.toNat⟩ filePos (min siz (file.length - filePos))
          ⟨⟨buf.array, bufPos.toNat⟩, filePos, min siz (file.length - filePos), 0, false, []⟩ := .start (by omega)
      have reads := Loop.invariant _ first (fun t u before guarded moved =>
        before.next low (by omega) valid (of_decide_eq_true (Bool.and_eq_true_iff.mp guarded).1) moved) tested
      have left := reads.left
      have nonneg := reads.nonneg
      have none_left : s.bytesLeft = 0 := by
        rcases Bool.and_eq_false_iff.mp stopped with spent | returned
        · have stops := of_decide_eq_false spent
          omega
        · have ends := reads.returned (by simpa using returned)
          omega
      have reached : s.currentLocation = filePos + min siz (file.length - filePos) := by omega
      have size := reads.tiles.length
      rw [reads.read, none_left, Int.sub_zero, max_eq_right (by omega), ← reached]
      exact ⟨rfl, reads.tiles, reads.buf, fun i first last => reads.found i first (by omega)⟩
    · have idle : s = ⟨⟨buf.array, bufPos.toNat⟩, filePos, min siz (file.length - filePos), 0, false, []⟩ := by
        apply tested.idle
        have none_left : ¬ 0 < min siz (file.length - filePos) := by omega
        exact Bool.and_eq_false_iff.mpr (.inl (decide_eq_false none_left))
      rw [idle, max_eq_left (by omega)]
      exact ⟨rfl, (Int.add_zero filePos).symm, (filled_nil _).symm, fun i first last =>
        absurd (lt_of_le_of_lt first last) (lt_irrefl 0)⟩
  · cases sought

/-! ### Calls on a flat file -/

inductive Op where
  | writeFile (buf : ByteBuffer) (len pos offset : Int)
  | read (buf : ByteBuffer) (bufPos siz filePos : Int)

/-- What a call gives, and the pieces that it handed to the buffers of chunks. -/
inductive Answer where
  | wrote (pieces : List ChunkPiece)
  | gave (ret : Int) (buf : ByteBuffer) (pieces : List ChunkPiece)

/-- The counts are `int`s, and the positions from the first to behind the last one are `long`s. -/
def Op.InRange : Op → Prop
  | .writeFile _ len _ offset => -2 ^ 31 ≤ len ∧ len < 2 ^ 31 ∧ -2 ^ 63 ≤ min offset (offset + len) ∧ offset + len < 2 ^ 63
  | .read _ _ siz filePos => -2 ^ 31 ≤ siz ∧ siz < 2 ^ 31 ∧ -2 ^ 63 ≤ min filePos (filePos + siz) ∧ filePos + siz < 2 ^ 63

def Op.run (blockDev : Bool) (file : DedupFile C) : Op → Option (DedupFile C × Answer)
  | .writeFile buf len pos offset => do
    let (file, pieces) ← DedupFileChannel.writeFile file buf len pos offset
    return (file, .wrote pieces)
  | .read buf bufPos siz filePos => do
    let (file, ret, buf, pieces) ← DedupFileChannel.read blockDev file buf bufPos siz filePos
    return (file, .gave ret buf pieces)

/-- Calls one after another, none of which throws. -/
def runAll (blockDev : Bool) : DedupFile C → List Op → Option (DedupFile C × List Answer)
  | file, [] => some (file, [])
  | file, op :: ops => do
    let (file, answer) ← op.run blockDev file
    let (file, answers) ← runAll blockDev file ops
    return (file, answer :: answers)

/-- A file that is one array: what was written to it, and its length. -/
structure Flat where
  writes : List Write
  length : Int

/-- The byte last written at a position; 0 if there is none. -/
def Flat.bytes (F : Flat) : Int → Option UInt8 := overlay (fun _ => some 0) F.writes

/-- The call does to the flat file `F` what it should: it makes `F'` of it, and hands out `pieces` in
order, each inside one chunk. -/
def Served (C : ChunkLength) (F : Flat) : Op → Answer → Flat → Prop
  | .writeFile buf len pos offset, .wrote pieces, F' =>
    Tiles C.val offset pieces (offset + max 0 len) ∧ joined pieces = pad (buf.array.drop pos.toNat) len.toNat ∧
      F'.writes = F.writes ++ [⟨joined pieces, offset⟩] ∧
      F'.length = if 0 < len then max F.length (offset + len) else F.length
  | .read buf bufPos siz filePos, .gave ret buf' pieces, F' =>
    F' = F ∧ if F.length ≤ filePos then ret = -1 ∧ buf' = buf ∧ pieces = [] else
      ret = max 0 (min siz (F.length - filePos)) ∧ Tiles C.val filePos pieces (filePos + ret) ∧
        buf' = filled ⟨buf.array, bufPos.toNat⟩ (joined pieces) ∧
        ∀ i, 0 ≤ i → i < ret → byteAt (joined pieces) i = F.bytes (filePos + i)
  | _, _, _ => False

inductive ServedAll (C : ChunkLength) : Flat → List Op → List Answer → Flat → Prop where
  | none (F : Flat) : ServedAll C F [] [] F
  | call {F G H : Flat} {op : Op} {ops : List Op} {answer : Answer} {answers : List Answer} :
    Served C F op answer G → ServedAll C G ops answers H → ServedAll C F (op :: ops) (answer :: answers) H

/-- The chunks hold the bytes of the flat file. -/
structure Holds (file : DedupFile C) (F : Flat) : Prop where
  bytes : bytes file = F.bytes
  length : file.length = F.length

theorem run_served {F : Flat} (holds : Holds file F) {op : Op} (range : op.InRange) {file' : DedupFile C} {answer : Answer}
    (done : op.run false file = some (file', answer)) : ∃ G, Served C F op answer G ∧ Holds file' G := by
  cases op with
  | writeFile buf len pos offset =>
    obtain ⟨⟨_, pieces⟩, wrote, same⟩ := Option.bind_eq_some_iff.mp done
    obtain ⟨rfl, rfl⟩ := Prod.mk.inj (Option.some.inj same)
    have low : -2 ^ 63 ≤ offset := range.2.2.1.trans (min_le_left _ _)
    obtain ⟨-, -, tiles, sent, -, length, bytes⟩ := writeFile_eq low range.2.2.2 wrote
    rw [holds.length] at length
    refine ⟨⟨F.writes ++ [⟨joined pieces, offset⟩], _⟩, ⟨tiles, sent, rfl, rfl⟩, ?_, length⟩
    rw [bytes, holds.bytes, Flat.bytes, Flat.bytes, overlay_append, overlay_cons, overlay_nil]
  | read buf bufPos siz filePos =>
    obtain ⟨⟨after, ret, buf', pieces⟩, gave, same⟩ := Option.bind_eq_some_iff.mp done
    obtain ⟨rfl, rfl⟩ := Prod.mk.inj (Option.some.inj same)
    by_cases past : F.length ≤ filePos
    · unfold DedupFileChannel.read at gave
      rw [holds.length, if_pos ⟨past, rfl⟩] at gave
      cases Option.some.inj gave
      refine ⟨F, ⟨rfl, ?_⟩, holds⟩
      rw [if_pos past]
      exact ⟨rfl, rfl, rfl⟩
    · obtain ⟨-, small, low, high⟩ := range
      obtain ⟨-, -, rfl, count, tiles, filled, found⟩ := read_eq small (low.trans (min_le_left _ _))
        (low.trans (min_le_right _ _)) high (by rw [holds.length]; omega) gave
      refine ⟨F, ⟨rfl, ?_⟩, holds⟩
      rw [if_neg past, ← holds.length, ← holds.bytes]
      exact ⟨count, tiles, filled, found⟩

def DedupFile.blank (C : ChunkLength) (length : Int) : DedupFile C := ⟨true, length, Chunked.blank C.val⟩

theorem holds_blank (C : ChunkLength) (length : Int) : Holds (DedupFile.blank C length) ⟨[], length⟩ where
  bytes := by
    funext x
    have size := C.pos
    have low := Int.emod_nonneg x (b := C.val) (by omega)
    have high := Int.emod_lt_of_pos x (b := C.val) (by omega)
    rw [bytes, Chunked.byte, Flat.bytes, overlay_nil, DedupFile.blank, Chunked.blank]
    dsimp only
    rw [byteAt_replicate, if_pos ⟨low, high⟩]
    rfl
  length := rfl

theorem runAll_served {file file' : DedupFile C} {F : Flat} (holds : Holds file F) {ops : List Op}
    (ranges : ∀ op ∈ ops, op.InRange) {answers : List Answer} (done : runAll false file ops = some (file', answers)) :
    ∃ G, ServedAll C F ops answers G ∧ Holds file' G := by
  induction ops generalizing file F answers with
  | nil =>
    cases Option.some.inj done
    exact ⟨F, .none F, holds⟩
  | cons op ops ih =>
    obtain ⟨⟨next, answer⟩, called, done⟩ := Option.bind_eq_some_iff.mp done
    obtain ⟨⟨last, rest⟩, others, same⟩ := Option.bind_eq_some_iff.mp done
    cases Option.some.inj same
    obtain ⟨G, served, held⟩ := run_served holds (ranges op (List.mem_cons_self ..)) called
    obtain ⟨H, all, ended⟩ := ih held (fun op member => ranges op (List.mem_cons_of_mem _ member)) others
    exact ⟨H, .call served all, ended⟩

/-! ### Calls that return -/

/-- The position is in the caller's buffer, and none of the file is negative. -/
def Op.Proper : Op → Prop
  | .writeFile buf _ pos offset => 0 ≤ pos ∧ pos ≤ buf.array.length ∧ 0 ≤ offset
  | .read buf bufPos _ filePos => 0 ≤ bufPos ∧ bufPos ≤ buf.array.length ∧ 0 ≤ filePos

theorem startPos_nonneg (C : ChunkLength) {x : Int} (low : 0 ≤ x) : 0 ≤ x - getChuckPosition C x := by
  have split := Int.tmod_add_tdiv_mul x C.val
  have start := Int.tmod_nonneg C.val low
  unfold getChuckPosition
  omega

theorem writeBody_isSome {s : Writing C} (low : 0 ≤ s.cp) (left : 0 < s.bytesLeft) : ∃ t, writeBody s = some t := by
  obtain ⟨start, below⟩ := startPos_eq C s.cp
  obtain ⟨len_pos, -, inside⟩ := pieceLength_bounds below left
  have first := startPos_nonneg C low
  unfold writeBody
  dsimp only
  rw [start]
  generalize pieceLength C (s.cp - getChuckPosition C s.cp) s.bytesLeft = len at len_pos inside
  have size : ((getOrPad s.buf len.toNat).1.length : Int) = len := by
    rw [(getOrPad_eq s.buf len.toNat).1, length_pad]
    omega
  obtain ⟨buffers, stored⟩ := s.file.writeBuffers.put_isSome (getChuckPosition C s.cp) first (size ▸ inside)
  rw [stored]
  exact ⟨_, rfl⟩

theorem readBody_isSome (file : DedupFile C) {s : Reading} (low : 0 ≤ s.currentLocation) (left : 0 < s.bytesLeft)
    (valid : s.buf.position ≤ s.buf.array.length) : ∃ t, readBody file s = some t := by
  obtain ⟨start, below⟩ := startPos_eq C s.currentLocation
  obtain ⟨len_pos, -, inside⟩ := pieceLength_bounds below left
  have first := startPos_nonneg C low
  unfold readBody
  dsimp only
  rw [start, Chunked.get, if_pos ⟨first, len_pos.le, inside⟩]
  dsimp only [Option.bind_eq_bind, Option.bind_some]
  rw [putOrCut_eq valid]
  exact ⟨_, rfl⟩

theorem writeFile_isSome {pos : Int} (writable : file.canWrite = true) (first : 0 ≤ pos) (last : pos ≤ buf.array.length)
    (low : 0 ≤ offset) (high : offset + len < 2 ^ 63) :
    ∃ file' pieces, writeFile file buf len pos offset = some (file', pieces) ∧ file'.canWrite = true := by
  have ends : ∃ s, (writeLoop C).run len.toNat ⟨file, ⟨buf.array, pos.toNat⟩, offset, len, []⟩ = .finished s ∧
      s.file.canWrite = true := by
    by_cases positive : 0 < len
    · have finish := (writeLoop C).run_descends (I := Writes file ⟨buf.array, pos.toNat⟩ offset len)
        (μ := fun s => s.bytesLeft.toNat) ?_ (Writes.start positive.le) (Nat.le_refl len.toNat)
      · obtain ⟨s, finished, writes, -⟩ := finish
        exact ⟨s, finished, writes.canWrite.trans writable⟩
      · intro s before guarded
        have left : 0 < s.bytesLeft := of_decide_eq_true guarded
        have total := before.left
        have far := before.tiles.length
        obtain ⟨t, moved⟩ := writeBody_isSome (show 0 ≤ s.cp by omega) left
        obtain ⟨p, step⟩ := writeBody_step left (by omega) (by omega) moved
        have some_left := step.within.2.2.1
        have less := step.bytesLeft
        exact ⟨t, moved, before.next (by omega) high left moved, by omega⟩
    · exact ⟨_, (writeLoop C).run_stopped (decide_eq_false positive) _, writable⟩
  obtain ⟨s, finished, kept⟩ := ends
  refine ⟨s.file, s.pieces, ?_, kept⟩
  rw [writeFile, writable, ByteBuffer.seek, if_pos ⟨first, last⟩]
  dsimp only [Option.bind_eq_bind, Option.bind_some, guard]
  rw [finished]
  rfl

theorem read_isSome (file : DedupFile C) {bufPos siz : Int} (first : 0 ≤ bufPos) (last : bufPos ≤ buf.array.length) (small : siz < 2 ^ 31)
    (low : 0 ≤ filePos) (low' : -2 ^ 63 ≤ filePos + siz) (high : filePos + siz < 2 ^ 63) :
    ∃ r, read false file buf bufPos siz filePos = some (file, r) := by
  unfold read
  by_cases past : file.length ≤ filePos
  · exact ⟨_, if_pos ⟨past, rfl⟩⟩
  · have kept : ¬ ((false : Bool) = true ∧ siz + filePos > file.length) := nofun
    rw [if_neg (fun both => past both.1), ByteBuffer.seek, if_pos ⟨first, last⟩, long_eq (by omega) (by omega)]
    dsimp only [Option.bind_eq_bind, Option.bind_some]
    rw [if_neg kept, available small (not_le.mp past)]
    have ends : ∃ s, (readLoop file).run (min siz (file.length - filePos)).toNat
        ⟨⟨buf.array, bufPos.toNat⟩, filePos, min siz (file.length - filePos), 0, false, []⟩ = .finished s := by
      by_cases positive : 0 < siz
      · have finish := (readLoop file).run_descends
          (I := Reads file ⟨buf.array, bufPos.toNat⟩ filePos (min siz (file.length - filePos)))
          (μ := fun s => s.bytesLeft.toNat) ?_ (Reads.start (by omega)) (Nat.le_refl _)
        · obtain ⟨s, finished, -⟩ := finish
          exact ⟨s, finished⟩
        · intro s before guarded
          have left : 0 < s.bytesLeft := of_decide_eq_true (Bool.and_eq_true_iff.mp guarded).1
          have total := before.left
          have far := before.tiles.length
          have valid : (⟨buf.array, bufPos.toNat⟩ : ByteBuffer).position ≤ buf.array.length := Int.toNat_le.mpr last
          have placed : s.buf.position ≤ s.buf.array.length := before.buf ▸ filled_valid valid _
          obtain ⟨t, moved⟩ := readBody_isSome file (show 0 ≤ s.currentLocation by omega) left placed
          obtain ⟨p, step⟩ := readBody_step left (by omega) (by omega) placed moved
          have some_left := step.within.2.2.1
          have less := step.bytesLeft
          exact ⟨t, moved, before.next (by omega) (by omega) valid left moved, by omega⟩
      · have none_left : ¬ 0 < min siz (file.length - filePos) := by omega
        exact ⟨_, (readLoop file).run_stopped (Bool.and_eq_false_iff.mpr (.inl (decide_eq_false none_left))) _⟩
    obtain ⟨s, finished⟩ := ends
    rw [finished]
    exact ⟨_, rfl⟩

theorem run_isSome {op : Op} (range : op.InRange) (proper : op.Proper) (writable : file.canWrite = true) :
    ∃ r, op.run false file = some r ∧ r.1.canWrite = true := by
  cases op with
  | writeFile buf len pos offset =>
    obtain ⟨first, last, low⟩ := proper
    obtain ⟨file', pieces, wrote, kept⟩ := writeFile_isSome writable first last low range.2.2.2
    exact ⟨(file', .wrote pieces), by rw [Op.run, wrote]; rfl, kept⟩
  | read buf bufPos siz filePos =>
    obtain ⟨first, last, low⟩ := proper
    obtain ⟨-, small, least, high⟩ := range
    obtain ⟨⟨ret, buf', pieces⟩, gave⟩ := read_isSome file first last small low (least.trans (min_le_right _ _)) high
    exact ⟨(file, .gave ret buf' pieces), by rw [Op.run, gave]; rfl, writable⟩

theorem runAll_isSome {ops : List Op} (ranges : ∀ op ∈ ops, op.InRange) (proper : ∀ op ∈ ops, op.Proper)
    (writable : file.canWrite = true) : ∃ r, runAll false file ops = some r := by
  induction ops generalizing file with
  | nil => exact ⟨_, rfl⟩
  | cons op ops ih =>
    obtain ⟨⟨next, answer⟩, called, kept⟩ := run_isSome (ranges op (List.mem_cons_self ..))
      (proper op (List.mem_cons_self ..)) writable
    obtain ⟨⟨last, answers⟩, others⟩ := ih (fun op member => ranges op (List.mem_cons_of_mem _ member))
      (fun op member => proper op (List.mem_cons_of_mem _ member)) kept
    refine ⟨(last, answer :: answers), ?_⟩
    dsimp only at others
    rw [runAll, called]
    dsimp only [Option.bind_eq_bind, Option.bind_some]
    rw [others]
    rfl

/-- The calls on a file that are in range behave as on a flat array, and none of them throws that is made
at positions of its buffer and of the file. -/
theorem calls_flat (C : ChunkLength) (length : Int) (ops : List Op) (ranges : ∀ op ∈ ops, op.InRange) :
    (∀ file answers, runAll false (DedupFile.blank C length) ops = some (file, answers) →
      ∃ F, ServedAll C ⟨[], length⟩ ops answers F ∧ Holds file F) ∧
    ((∀ op ∈ ops, op.Proper) → ∃ r, runAll false (DedupFile.blank C length) ops = some r) :=
  ⟨fun _ _ done => runAll_served (holds_blank C length) ranges done,
    fun proper => runAll_isSome ranges proper rfl⟩

def fourBytes : ChunkLength := ⟨4, by decide, by decide⟩

def sampleCalls : List Op :=
  [.writeFile ⟨[1, 2, 3, 4], 0⟩ 3 1 3, .read ⟨[9, 9, 9], 0⟩ 0 10 2]

theorem calls_flat_sample :
    (∀ file answers, runAll false (DedupFile.blank fourBytes 0) sampleCalls = some (file, answers) →
      ∃ F, ServedAll fourBytes ⟨[], 0⟩ sampleCalls answers F ∧ Holds file F) ∧
    ((∀ op ∈ sampleCalls, op.Proper) → ∃ r, runAll false (DedupFile.blank fourBytes 0) sampleCalls = some r) :=
  calls_flat fourBytes 0 sampleCalls (by
    intro op member
    rcases List.mem_cons.mp member with rfl | rest
    · exact ⟨by decide, by decide, by decide, by decide⟩
    · obtain rfl := List.mem_singleton.mp rest
      exact ⟨by decide, by decide, by decide, by decide⟩)

/-- A write of no bytes behind the end of the file does not make it longer, and one that ends at the last
`long` does not either. -/
theorem length_not_max :
    ((writeFile (DedupFile.blank fourBytes 0) ⟨[], 0⟩ 0 0 5).map fun r => r.1.length) = some 0 ∧
    ((writeFile (DedupFile.blank fourBytes 0) ⟨[1], 0⟩ 1 0 (2 ^ 63 - 1)).map fun r => r.1.length) = some 0 := by
  decide +kernel

end EncryptedDedup.SDFS.DedupFileChannel
