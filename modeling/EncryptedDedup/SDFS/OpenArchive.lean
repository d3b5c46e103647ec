import EncryptedDedup.SDFS.Compaction

/-!
# Archives that are open

What a call gets from an archive that is still written, what is read of it meanwhile, and which files it leaves.
-/

namespace EncryptedDedup.SDFS.HashBlobArchive
open SimpleByteArrayLongMap (Layout IsKey Knows contents)

variable {a : Archive} {T : Layout} {w : Writers} {r : Reserved} {hash chunk : Bytes} {found : Found}

def Writers.close (w : Writers) : Writers := { w with writer := { w.writer with writeable := false } }

/-- Interleavings of calls, after which the archive may have been closed. -/
def Opened (a : Archive) (T : Layout) (w : Writers) : Prop := Writing a T w ∨ ∃ w₀, Writing a T w₀ ∧ w = w₀.close

theorem Opened.close (opened : Opened a T w) : Opened a T w.close := by
  rcases opened with writing | ⟨w₀, writing, rfl⟩
  · exact .inr ⟨w, writing, rfl⟩
  · exact .inr ⟨w₀, writing, rfl⟩

theorem reserveIn_cases (a : Archive) (w : Writer) (hash chunk : Bytes) (found : Found) :
    (∃ w' e, reserveIn a w hash chunk found = (w', .error e) ∧ e ≠ .hashExists) ∨
    (w.writeable = true ∧ w.map.currentSz < a.wMaxSz ∧ ∃ map,
      SimpleByteArrayLongMap.put a.hashLength w.map hash (entryOf a hash (a.encode chunk) w.np) = (map, .ok false) ∧
      reserveIn a w hash chunk found = ({ w with map := map }, .error .hashExists)) ∨
    (w.writeable = true ∧ ∃ w', reserveIn a w hash chunk found = (w', .ok ⟨hash, chunk, a.encode chunk, w.np⟩)) := by
  unfold reserveIn
  dsimp only
  by_cases uploading : found.uploading = true
  · rw [if_pos uploading]
    exact .inl ⟨_, _, rfl, by decide⟩
  rw [if_neg uploading]
  by_cases closed : w.writeable = false
  · rw [if_pos closed]
    exact .inl ⟨_, _, rfl, by decide⟩
  rw [if_neg closed]
  by_cases full : a.blocksz ≤ w.np
  · rw [if_pos full]
    exact .inl ⟨_, _, rfl, by decide⟩
  rw [if_neg full]
  by_cases noMap : found.noMap = true
  · rw [if_pos noMap]
    exact .inl ⟨_, _, rfl, by decide⟩
  rw [if_neg noMap]
  by_cases many : a.wMaxSz ≤ w.map.currentSz
  · rw [if_pos many]
    exact .inl ⟨_, _, rfl, by decide⟩
  rw [if_neg many]
  by_cases noFile : found.noFile = true
  · rw [if_pos noFile]
    exact .inl ⟨_, _, rfl, by decide⟩
  rw [if_neg noFile]
  have writeable : w.writeable = true := Bool.eq_true_of_not_eq_false closed
  cases answer : SimpleByteArrayLongMap.put a.hashLength w.map hash (entryOf a hash (a.encode chunk) w.np) with
  | mk map result =>
    cases result with
    | ok inserted =>
      cases inserted with
      | true => exact .inr (.inr ⟨writeable, _, rfl⟩)
      | false => exact .inr (.inl ⟨writeable, Nat.lt_of_not_le many, map, rfl, rfl⟩)
    | error e => cases e <;> exact .inl ⟨_, _, rfl, by decide⟩

theorem reserveIn_record {w w' : Writer} (placed : reserveIn a w hash chunk found = (w', .ok r)) :
    r = ⟨hash, chunk, a.encode chunk, w.np⟩ := by
  rcases reserveIn_cases a w hash chunk found with ⟨_, _, refused, -⟩ | ⟨-, -, _, -, known⟩ | ⟨-, _, record⟩
  · rw [refused] at placed
    cases placed
  · rw [known] at placed
    cases placed
  · rw [record] at placed
    exact (Except.ok.inj (Prod.mk.inj placed).2).symm

theorem reserveIn_closed {w : Writer} (closed : w.writeable = false) (hash chunk : Bytes) (found : Found) :
    ∃ e, reserveIn a w hash chunk found = (w, .error e) ∧ e ≠ .hashExists := by
  unfold reserveIn
  dsimp only
  by_cases uploading : found.uploading = true
  · rw [if_pos uploading]
    exact ⟨_, rfl, by decide⟩
  · rw [if_neg uploading, if_pos closed]
    exact ⟨_, rfl, by decide⟩

theorem Opened.reserve (opened : Opened a T w) (call : Call a hash chunk) (plain : IsKey T hash) (found : Found) :
    Opened a T (w.reserve a hash chunk found) := by
  rcases opened with writing | ⟨w₀, writing, rfl⟩
  · exact .inl (writing.reserve call plain)
  · obtain ⟨e, refused, -⟩ := @reserveIn_closed a w₀.close.writer rfl hash chunk found
    have same : w₀.close.reserve a hash chunk found = w₀.close := by
      rw [Writers.reserve, refused]
    rw [same]
    exact .inr ⟨w₀, writing, rfl⟩

theorem Opened.write (opened : Opened a T w) (member : r ∈ w.waiting) : Opened a T (w.write r) := by
  rcases opened with writing | ⟨w₀, writing, rfl⟩
  · exact .inl (writing.write member)
  · exact .inr ⟨w₀.write r, writing.write member, rfl⟩

theorem Opened.writing (opened : Opened a T w) : ∃ w₀, Writing a T w₀ ∧ w₀.waiting = w.waiting ∧ w₀.returned = w.returned ∧
    w₀.writer.np = w.writer.np ∧ w₀.writer.map = w.writer.map ∧ w₀.writer.f = w.writer.f := by
  rcases opened with writing | ⟨w₀, writing, rfl⟩
  · exact ⟨w, writing, rfl, rfl, rfl, rfl, rfl⟩
  · exact ⟨w₀, writing, rfl, rfl, rfl, rfl, rfl⟩

theorem Opened.exists (uses : a.Uses T) (opened : Opened a T w) (plain : IsKey T hash) {w' : Writer}
    (result : reserveIn a w.writer hash chunk found = (w', .error .hashExists)) :
    hash ∈ (w.waiting ++ w.returned).map Reserved.hash := by
  rcases reserveIn_cases a w.writer hash chunk found with
    ⟨w', e, refused, other⟩ | ⟨writeable, few, map, answer, -⟩ | ⟨-, w', placed⟩
  · rw [refused] at result
    exact absurd (Except.error.inj (Prod.mk.inj result).2) other
  · rcases opened with writing | ⟨w₀, -, rfl⟩
    · obtain ⟨s, run, reflects⟩ := writing_reflects uses writing
      obtain ⟨kept, -⟩ := run_kept run
      rcases put_answers uses reflects kept (run_counted run) plain few (entryOf a hash (a.encode chunk) w.writer.np) with
        ⟨known, -⟩ | ⟨-, i, answer'⟩
      · obtain ⟨r, member, same⟩ := kept.known hash known
        rw [Calls.live, reflects.waiting, reflects.returned] at member
        exact List.mem_map.mpr ⟨r, member, same⟩
      · rw [answer] at answer'
        cases answer'
    · cases writeable
  · rw [placed] at result
    cases result

/-! ### Reading -/

/-- A chunk is read as soon as the call that has put it returns. -/
theorem Opened.read (uses : a.Uses T) (opened : Opened a T w) (member : r ∈ w.returned) :
    w.writer.read a r.hash = some r.chunk := by
  obtain ⟨w₀, writing, waiting, returned, np, map, f⟩ := opened.writing
  obtain ⟨s, run, reflects⟩ := writing_reflects uses writing
  obtain ⟨kept, -⟩ := run_kept run
  have there : r ∈ s.returned := by
    rw [reflects.returned, returned]
    exact member
  have live : r ∈ s.live := List.mem_append_right _ there
  have plain := reflects.plain r live
  have entry : lookup a.hashLength w.writer.map r.hash = some (entryOf a r.hash r.stored r.cp) := by
    rw [← map, lookup, ← uses.hashLength, SimpleByteArrayLongMap.get_eq reflects.opened, reflects.knows.same r.hash plain,
      kept.entry r live]
    rfl
  refine getChunk_intact (kept.placed r live) uses.lawful (.inr uses.here) entry fun x inside => ?_
  obtain ⟨v, byte⟩ := @byteAt_of_lt r.bytes (x - r.cp) (by have := inside.1; omega) (by have := inside.2; omega)
  rw [byte, ← f]
  exact reflects.file x v ((kept.intact r there x inside).trans byte)

theorem Opened.keys (uses : a.Uses T) (opened : Opened a T w) : ((w.waiting ++ w.returned).map Reserved.hash).Nodup ∧
    ∀ r ∈ w.waiting ++ w.returned, IsKey T r.hash := by
  obtain ⟨w₀, writing, waiting, returned, -⟩ := opened.writing
  obtain ⟨s, run, reflects⟩ := writing_reflects uses writing
  have live : s.live = w.waiting ++ w.returned := by
    rw [Calls.live, reflects.waiting, reflects.returned, waiting, returned]
  rw [← live]
  exact ⟨(run_counted run).single, reflects.plain⟩

/-! ### Sealing -/

theorem Opened.stored (uses : a.Uses T) (opened : Opened a T w) (idle : w.waiting = []) :
    Sealed T ⟨a, w.writer.f, w.writer.map.kFC⟩ w.returned := by
  obtain ⟨w₀, writing, waiting, returned, -, map, f⟩ := opened.writing
  have whole : w₀ = ⟨w₀.writer, [], w.returned⟩ := by
    rw [← idle, ← waiting, ← returned]
  rw [whole] at writing
  have stored := writing.stored uses
  rwa [map, f] at stored

theorem reserve_few {s s' : State} (result : HashBlobArchive.reserve a s hash chunk found = (s', .ok r)) :
    s.currentSize < a.wMaxSz := by
  by_contra many
  unfold HashBlobArchive.reserve at result
  dsimp only at result
  rw [if_pos (Nat.le_of_not_lt many)] at result
  split_ifs at result <;> cases result

theorem run_size {s : Calls} (run : Run a s) : s.archive.currentSize ≤ a.wMaxSz := by
  induction run with
  | new => exact Nat.zero_le _
  | @step s e before possible meets ih =>
    cases e with
    | reserve hash chunk found =>
      rw [HashBlobArchive.step]
      rcases reserve_cases a s.archive hash chunk found with ⟨writeable, e, result⟩ | ⟨r, -, -, -, result⟩
      · rw [result]
        exact ih
      · have few := reserve_few result
        rw [result]
        exact few
    | write r => exact ih
    | writeFails r n => exact meets.elim

/-- What is stored for a chunk has at most `m` bytes, and with it offsets and the file of a map are of the type `int`. -/
structure Archive.Bounded (a : Archive) (m : Nat) : Prop where
  f : a.offset + a.blocksz + 2 * a.hashLength + m + 12 < 2 ^ 31
  map : (4 * a.wMaxSz + 17) * (a.hashLength + 8) + 16 < 2 ^ 31

theorem Opened.small (uses : a.Uses T) (opened : Opened a T w) (idle : w.waiting = []) {m : Nat} (bounded : a.Bounded m)
    (short : ∀ r ∈ w.returned, r.stored.length ≤ m) : Small ⟨a, w.writer.f, w.writer.map.kFC⟩ w.returned := by
  obtain ⟨w₀, writing, waiting, returned, np, map, f⟩ := opened.writing
  obtain ⟨s, run, reflects⟩ := writing_reflects uses writing
  obtain ⟨kept, -⟩ := run_kept run
  have live : s.live = w.returned := by
    rw [Calls.live, reflects.waiting, reflects.returned, waiting, returned, idle, List.nil_append]
  have most := reflects.most
  rw [f, ← reflects.np] at most
  constructor
  · have bound := bounded.f
    show w.writer.f.length + 4 + a.hashLength < 2 ^ 31
    by_cases empty : s.archive.np ≤ a.offset
    · omega
    · obtain ⟨r, member, covered⟩ := (kept.tiled.all (s.archive.np - 1)).mp (by omega)
      have placed := kept.placed r member
      have before := placed.high
      have hash := placed.call.hashLength
      have stored := short r (live ▸ member)
      have bytes := r.length_bytes
      have last := covered.2
      omega
  · have few := run_size run
    rw [(run_counted run).size, live] at few
    have wide := Nat.mul_le_mul_right (a.hashLength + 8) (show 4 * w.returned.length + 17 ≤ 4 * a.wMaxSz + 17 by omega)
    exact Nat.lt_of_le_of_lt (Nat.add_le_add_right wide 16) bounded.map

end EncryptedDedup.SDFS.HashBlobArchive
