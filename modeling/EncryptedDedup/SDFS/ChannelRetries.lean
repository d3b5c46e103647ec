import EncryptedDedup.SDFS.FlatFile

/-!
# Calls that are tried again

`writeFile` and `read` of `DedupFileChannel` with the exceptions of the buffers of chunks. With a closed buffer
the piece is tried again; with archived data, which is recovered, and with a closed file, which is opened, the
whole call is made again.
-/

namespace EncryptedDedup.SDFS.DedupFileChannel

/-- What an attempt at the buffer of a chunk throws. -/
inductive Fault where
  | bufferClosed
  | dataArchived
  | fileClosed

/-- What attempts throw, one after another. All later attempts succeed. -/
abbrev Attempts : Type := List (Option Fault)

/-- The loop around an attempt, which catches the `BufferClosedException`. -/
def attempt : Attempts → Option Fault × Attempts
  | [] => (none, [])
  | none :: rest => (none, rest)
  | some .bufferClosed :: rest => attempt rest
  | some fault :: rest => (some fault, rest)

variable {C : ChunkLength}

/-! ### `writeFile` -/

structure WriteTry (C : ChunkLength) where
  writing : Writing C
  attempts : Attempts
  thrown : Option Fault

def writeTryBody (t : WriteTry C) : Option (WriteTry C) :=
  match attempt t.attempts with
  | (none, rest) => (writeBody t.writing).map fun s => ⟨s, rest, none⟩
  | (some fault, rest) => some ⟨t.writing, rest, some fault⟩

/-- An exception that is not caught inside ends the loop. -/
def writeTryLoop (C : ChunkLength) : Loop (WriteTry C) where
  guard t := decide (0 < t.writing.bytesLeft) && t.thrown.isNone
  body := writeTryBody

/-- `writeFile` and the calls that it makes of itself behind its loop, so many at most. -/
def writeFileIn (buf : ByteBuffer) (len pos offset : Int) : Nat → DedupFile C → Attempts → Option (DedupFile C)
  | 0, _, _ => none
  | calls + 1, file, attempts => do
    guard file.canWrite
    let placed ← buf.seek pos
    let t ← ((writeTryLoop C).run len.toNat ⟨⟨file, placed, offset, len, []⟩, attempts, none⟩).result
    match t.thrown with
    | none => return t.writing.file
    | some _ => writeFileIn buf len pos offset calls t.writing.file t.attempts

/-- Every call that is made again has at least one exception behind it. -/
def writeFileTrying (file : DedupFile C) (buf : ByteBuffer) (len pos offset : Int) (attempts : Attempts) :
    Option (DedupFile C) :=
  writeFileIn buf len pos offset (attempts.length + 1) file attempts

/-! ### `read` -/

structure ReadTry (C : ChunkLength) where
  file : DedupFile C
  reading : Reading
  attempts : Attempts

/-- The call that is made again is made inside the loop, with the same buffer, and the loop goes on behind it. -/
def readTryBody (again : DedupFile C → ByteBuffer → Attempts → Option (DedupFile C × Int × ByteBuffer × Attempts))
    (t : ReadTry C) : Option (ReadTry C) :=
  match attempt t.attempts with
  | (none, rest) => (readBody t.file t.reading).map fun s => ⟨t.file, s, rest⟩
  | (some _, rest) => (again t.file t.reading.buf rest).map fun (file, _, buf, rest) =>
    ⟨file, { t.reading with buf, returned := t.reading.currentLocation = file.length }, rest⟩

def readTryLoop (again : DedupFile C → ByteBuffer → Attempts → Option (DedupFile C × Int × ByteBuffer × Attempts)) :
    Loop (ReadTry C) where
  guard t := decide (0 < t.reading.bytesLeft) && !t.reading.returned
  body := readTryBody again

/-- `read` and the calls that it makes of itself, so many inside one another. -/
def readIn (blockDev : Bool) (bufPos siz filePos : Int) :
    Nat → DedupFile C → ByteBuffer → Attempts → Option (DedupFile C × Int × ByteBuffer × Attempts)
  | 0, _, _, _ => none
  | calls + 1, file, buf, attempts =>
    if file.length ≤ filePos ∧ blockDev = false then some (file, -1, buf, attempts) else do
      let buf ← buf.seek bufPos
      let futureFilePostion := long (siz + filePos)
      let length := if blockDev ∧ futureFilePostion > file.length then futureFilePostion else file.length
      let file := { file with length }
      let bytesLeft := if futureFilePostion > file.length then int (file.length - filePos) else siz
      let t ← ((readTryLoop (readIn blockDev bufPos siz filePos calls)).run (bytesLeft.toNat + attempts.length)
        ⟨file, ⟨buf, filePos, bytesLeft, 0, false, []⟩, attempts⟩).result
      return (t.file, t.reading.read, t.reading.buf, t.attempts)

def readTrying (blockDev : Bool) (file : DedupFile C) (buf : ByteBuffer) (bufPos siz filePos : Int) (attempts : Attempts) :
    Option (DedupFile C × Int × ByteBuffer × Attempts) :=
  readIn blockDev bufPos siz filePos (attempts.length + 1) file buf attempts

/-! ### Attempts -/

theorem attempt_le (attempts : Attempts) : (attempt attempts).2.length ≤ attempts.length := by
  induction attempts using attempt.induct with
  | case1 => exact Nat.le_refl 0
  | case2 rest => exact Nat.le_succ _
  | case3 rest ih => exact ih.trans (Nat.le_succ _)
  | case4 fault rest other =>
    cases fault with
    | bufferClosed => exact absurd rfl other
    | dataArchived | fileClosed => exact Nat.le_succ _

theorem attempt_lt {attempts : Attempts} {fault : Fault} (thrown : (attempt attempts).1 = some fault) :
    (attempt attempts).2.length < attempts.length := by
  induction attempts using attempt.induct with
  | case1 => cases thrown
  | case2 rest => cases thrown
  | case3 rest ih => exact (ih thrown).trans (Nat.lt_succ_self _)
  | case4 fault rest other =>
    cases fault with
    | bufferClosed => exact absurd rfl other
    | dataArchived | fileClosed => exact Nat.lt_succ_self _

/-- The call is made again before so many attempts have succeeded. -/
def strikes : Attempts → Nat → Bool
  | _, 0 => false
  | attempts, k + 1 => (attempt attempts).1.isSome || strikes (attempt attempts).2 k

/-! ### Writes that are made again -/

def content (file : DedupFile C) : Bool × Int × (Int → Option UInt8) := (file.canWrite, file.length, bytes file)

def contentAfter (file : DedupFile C) (b : Bytes) (offset len : Int) : Bool × Int × (Int → Option UInt8) :=
  (file.canWrite, if 0 < len then max file.length (offset + len) else file.length, written (bytes file) ⟨b, offset⟩)

variable {file : DedupFile C} {buf : ByteBuffer} {offset len : Int}

theorem Writes.finished {s : Writing C} (writes : Writes file buf offset len s) (positive : 0 < len)
    (spent : ¬ 0 < s.bytesLeft) : content s.file = contentAfter file (pad (ahead buf) len.toNat) offset len := by
  have total := writes.left
  have nonneg := writes.nonneg
  have sent := writes.sent
  have length := writes.length
  rw [show s.bytesLeft.toNat = 0 by omega, pad_zero, List.append_nil] at sent
  rw [if_pos (by omega), show s.cp = offset + len by omega] at length
  rw [content, contentAfter, if_pos positive, writes.canWrite, length, writes.bytes, sent]

theorem Writes.again {s : Writing C} (writes : Writes file buf offset len s) :
    contentAfter s.file (pad (ahead buf) len.toNat) offset len = contentAfter file (pad (ahead buf) len.toNat) offset len := by
  have total := writes.left
  have nonneg := writes.nonneg
  have length := writes.length
  have shorter : (joined s.pieces).length ≤ (pad (ahead buf) len.toNat).length := by
    rw [← writes.sent, List.length_append]
    exact Nat.le_add_right _ _
  rw [contentAfter, contentAfter, writes.canWrite, writes.bytes, written_under _ shorter, length]
  congr 2
  split_ifs <;> omega

/-- What the loop has written when it tests its condition, and what exceptions are left. -/
structure WriteTries (file : DedupFile C) (buf : ByteBuffer) (offset len : Int) (attempts : Attempts) (t : WriteTry C) :
    Prop where
  writes : Writes file buf offset len t.writing
  le : t.attempts.length ≤ attempts.length
  lt : t.thrown.isSome = true → t.attempts.length < attempts.length

theorem WriteTries.next (low : 0 ≤ offset) (high : offset + len < 2 ^ 63) {attempts : Attempts} {t : WriteTry C}
    (before : WriteTries file buf offset len attempts t) (left : 0 < t.writing.bytesLeft) :
    ∃ u, writeTryBody t = some u ∧ WriteTries file buf offset len attempts u ∧
      (u.thrown = none → u.writing.bytesLeft < t.writing.bytesLeft) := by
  have far := before.writes.tiles.length
  have total := before.writes.left
  have fewer := attempt_le t.attempts
  have le := before.le
  unfold writeTryBody
  rcases tried : attempt t.attempts with ⟨_ | fault, rest⟩
  · rw [tried] at fewer
    obtain ⟨s, moved⟩ := writeBody_isSome (show 0 ≤ t.writing.cp by omega) left
    obtain ⟨p, step⟩ := writeBody_step left (by omega) (by omega) moved
    have some_left := step.within.2.2.1
    have less := step.bytesLeft
    rw [moved]
    exact ⟨⟨s, rest, none⟩, rfl, ⟨before.writes.next (by omega) high left moved, fewer.trans le, nofun⟩,
      fun _ => by dsimp only; omega⟩
  · have spent := attempt_lt (congrArg Prod.fst tried)
    rw [tried] at spent
    exact ⟨⟨t.writing, rest, some fault⟩, rfl, ⟨before.writes, (spent.trans_le le).le, fun _ => spent.trans_le le⟩, nofun⟩

theorem writeTryLoop_ends (file : DedupFile C) (buf : ByteBuffer) (low : 0 ≤ offset) (high : offset + len < 2 ^ 63) (positive : 0 < len) (attempts : Attempts) :
    ∃ t, (writeTryLoop C).run len.toNat ⟨⟨file, buf, offset, len, []⟩, attempts, none⟩ = .finished t ∧
      WriteTries file buf offset len attempts t ∧ (t.thrown = none → ¬ 0 < t.writing.bytesLeft) := by
  have start : WriteTries file buf offset len attempts ⟨⟨file, buf, offset, len, []⟩, attempts, none⟩ :=
    ⟨.start positive.le, Nat.le_refl _, fun thrown => nomatch thrown⟩
  have finish := (writeTryLoop C).run_descends (I := WriteTries file buf offset len attempts)
    (μ := fun t => if t.thrown.isSome then 0 else t.writing.bytesLeft.toNat) ?_ start (Nat.le_refl len.toNat)
  · obtain ⟨t, finished, tries, stopped⟩ := finish
    refine ⟨t, finished, tries, fun calm left => ?_⟩
    have guarded : (writeTryLoop C).guard t = true :=
      Bool.and_eq_true_iff.mpr ⟨decide_eq_true left, Option.isNone_iff_eq_none.mpr calm⟩
    rw [stopped] at guarded
    cases guarded
  · intro t before guarded
    obtain ⟨positive, calm⟩ := Bool.and_eq_true_iff.mp guarded
    have left : 0 < t.writing.bytesLeft := of_decide_eq_true positive
    obtain ⟨u, moved, after, less⟩ := before.next low high left
    refine ⟨u, moved, after, ?_⟩
    simp only [Option.isNone_iff_eq_none.mp calm, Option.isSome_none, Bool.false_eq_true, if_false]
    split
    · omega
    · rename_i none_thrown
      have smaller := less (Option.not_isSome_iff_eq_none.mp none_thrown)
      omega

theorem writeFileIn_content (calls : Nat) {pos : Int} (first : 0 ≤ pos) (last : pos ≤ buf.array.length)
    (low : 0 ≤ offset) (high : offset + len < 2 ^ 63) (file : DedupFile C) (attempts : Attempts)
    (writable : file.canWrite = true) (enough : attempts.length < calls) :
    ∃ file', writeFileIn buf len pos offset calls file attempts = some file' ∧
      content file' = contentAfter file (pad (buf.array.drop pos.toNat) len.toNat) offset len := by
  induction calls generalizing file attempts with
  | zero => omega
  | succ calls ih =>
    unfold writeFileIn
    rw [writable, ByteBuffer.seek, if_pos ⟨first, last⟩]
    dsimp only [Option.bind_eq_bind, Option.bind_some, guard]
    by_cases positive : 0 < len
    · obtain ⟨t, finished, tries, done⟩ := writeTryLoop_ends file ⟨buf.array, pos.toNat⟩ low high positive
        attempts
      rw [finished]
      dsimp only [Outcome.result, Option.bind_some]
      cases caught : t.thrown with
      | none => exact ⟨_, rfl, tries.writes.finished positive (done caught)⟩
      | some fault =>
        have fewer := tries.lt (by rw [caught]; rfl)
        obtain ⟨file', made, after⟩ := ih t.writing.file t.attempts (tries.writes.canWrite.trans writable) (by omega)
        exact ⟨file', made, after.trans tries.writes.again⟩
    · rw [(writeTryLoop C).run_stopped (Bool.and_eq_false_iff.mpr (.inl (decide_eq_false positive)))]
      refine ⟨file, rfl, ?_⟩
      rw [content, contentAfter, if_neg positive, show len.toNat = 0 by omega, pad_zero, written_empty]

theorem writeFile_content {pos : Int} (writable : file.canWrite = true) (first : 0 ≤ pos) (last : pos ≤ buf.array.length)
    (low : 0 ≤ offset) (high : offset + len < 2 ^ 63) :
    ∃ r, writeFile file buf len pos offset = some r ∧
      content r.1 = contentAfter file (pad (buf.array.drop pos.toNat) len.toNat) offset len := by
  obtain ⟨file', pieces, wrote, -⟩ := writeFile_isSome writable first last low high
  obtain ⟨-, -, -, sent, kept, length, bytes⟩ := writeFile_eq (by omega) high wrote
  refine ⟨_, wrote, ?_⟩
  rw [content, contentAfter, kept, length, bytes, sent]

theorem writeFileTrying_content (low : 0 ≤ offset) (high : offset + len < 2 ^ 63) (pos : Int) (attempts : Attempts) :
    (writeFileTrying file buf len pos offset attempts).map content =
      (writeFile file buf len pos offset).map fun r => content r.1 := by
  cases writable : file.canWrite with
  | false => simp [writeFileTrying, writeFileIn, writeFile, writable, guard]
  | true =>
    by_cases placed : 0 ≤ pos ∧ pos ≤ buf.array.length
    · obtain ⟨file', made, same⟩ := writeFileIn_content (attempts.length + 1) placed.1 placed.2 low high file attempts
        writable (Nat.lt_succ_self _)
      obtain ⟨r, wrote, same'⟩ := writeFile_content writable placed.1 placed.2 low high
      rw [writeFileTrying, made, wrote, Option.map_some, Option.map_some, same, same']
    · simp [writeFileTrying, writeFileIn, writeFile, ByteBuffer.seek, if_neg placed, writable, guard]

end EncryptedDedup.SDFS.DedupFileChannel
