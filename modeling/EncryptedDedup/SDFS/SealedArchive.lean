import EncryptedDedup.SDFS.ArchiveWriters

/-!
# Archives that are read

What the files of an archive give, what an iteration over its map lists, and what a put into a new archive does.
-/

namespace EncryptedDedup.SDFS.HashBlobArchive
open SimpleByteArrayLongMap (Layout IsKey Fits Knows Session contents)

variable {a : Archive} {T : Layout} {st : Stored} {rs done : List Reserved} {w : Writer} {r : Reserved} {hash chunk : Bytes}

/-! ### Reading -/

theorem Sealed.getRawMap (sealed : Sealed T st rs) (site : Site) :
    Knows T (st.getRawMap site) (fun hash => (recordOf rs hash).map fun r => entryOf st.setup r.hash r.stored r.cp) ∧
      Session T (st.getRawMap site) ∧ (st.getRawMap site).bw = some [] ∧ (st.getRawMap site).closed = false := by
  obtain ⟨m, knows, file⟩ := sealed.map
  have kind : (st.setup.version : Int) = 0 ↔ T.version = 0 := by rw [sealed.uses.version]
  have same : st.getRawMap site = SimpleByteArrayLongMap.setUp T.hashLength site.maxHmSz st.setup.version (some m.kFC) := by
    rw [Stored.getRawMap, sealed.uses.hashLength, file]
  obtain ⟨sound, kept⟩ := SimpleByteArrayLongMap.setUp_sound knows.sound site.maxHmSz kind
  have state := SimpleByteArrayLongMap.setUp_file knows.sound site.maxHmSz kind
  rw [same]
  have bw : (SimpleByteArrayLongMap.setUp T.hashLength site.maxHmSz st.setup.version (some m.kFC)).bw = some [] := by
    rw [state]
  refine ⟨⟨sound, fun key plain => (kept key plain).trans (knows.same key plain)⟩, .fresh sound bw ?_, bw, ?_⟩
  · rw [state]
  · rw [state]

theorem Sealed.read (sealed : Sealed T st rs) (site : Site) (plain : IsKey T hash) :
    st.read site hash = chunkOf rs hash := by
  obtain ⟨knows, -, -, opened⟩ := sealed.getRawMap site
  have entry : (st.state site).map hash = some ((contents T (st.getRawMap site) hash).getD (-1)) := by
    show lookup st.setup.hashLength (st.getRawMap site) hash = _
    rw [lookup, ← sealed.uses.hashLength, SimpleByteArrayLongMap.get_eq opened]
  rw [knows.same hash plain] at entry
  unfold chunkOf Stored.read
  cases there : recordOf rs hash with
  | none =>
    rw [there] at entry
    unfold getChunk
    rw [entry]
    rfl
  | some r =>
    obtain ⟨member, rfl⟩ := (recordOf_some sealed.single).mp there
    rw [there] at entry
    exact getChunk_intact (sealed.placed r member) sealed.uses.lawful (.inr sealed.uses.here) entry (sealed.intact r member)

/-- The record in the last slot of a file with a header is listed a second time. -/
def Repeats (T : Layout) (m : SimpleByteArrayLongMap.State) : Prop :=
  T.version ≠ 0 ∧ SimpleByteArrayLongMap.slotAt T m (T.size - 1) ≠ .free

theorem Sealed.listed (sealed : Sealed T st rs) (site : Site) : ∃ l last t,
    SimpleByteArrayLongMap.enumerate st.setup.hashLength (st.getRawMap site) site.order = .finished (.ok (l ++ last), t) ∧
      (l.map Prod.fst).Perm (rs.map Reserved.hash) ∧ last.length ≤ 1 ∧ (∀ e ∈ last, e ∈ l) ∧
        (last ≠ [] ↔ Repeats T (st.getRawMap site)) := by
  obtain ⟨knows, session, bw, opened⟩ := sealed.getRawMap site
  obtain ⟨t, result⟩ := SimpleByteArrayLongMap.enumerate_eq site.order session opened
  have scan : SimpleByteArrayLongMap.listed T site.order (st.getRawMap site) =
      SimpleByteArrayLongMap.scan T (st.getRawMap site) := by
    rw [SimpleByteArrayLongMap.listed, bw]
  have lists := SimpleByteArrayLongMap.lists_slots session.sound
  obtain ⟨nodup, keys⟩ := lists.hashes
  rw [scan, SimpleByteArrayLongMap.scan_eq, sealed.uses.hashLength] at result
  refine ⟨_, _, t, result, (List.perm_ext_iff_of_nodup nodup sealed.single).mpr fun key => ?_, ?_, ?_, ?_⟩
  · rw [keys key, List.mem_map]
    constructor
    · rintro ⟨plain, known⟩
      rw [knows.same key plain, Option.isSome_map] at known
      obtain ⟨r, there⟩ := Option.isSome_iff_exists.mp known
      exact ⟨r, (recordOf_some sealed.single).mp there⟩
    · rintro ⟨r, member, rfl⟩
      have plain := sealed.plain r member
      have there := (recordOf_some sealed.single).mpr ⟨member, rfl⟩
      refine ⟨plain, ?_⟩
      rw [knows.same _ plain, there]
      rfl
  · split
    · exact Nat.zero_le 1
    · cases SimpleByteArrayLongMap.itemAt T (st.getRawMap site) (T.size - 1) with
      | none => exact Nat.zero_le 1
      | some e => exact Nat.le_refl 1
  · intro e member
    split at member
    · exact absurd member List.not_mem_nil
    · have two := SimpleByteArrayLongMap.size_ge T
      exact List.mem_filterMap.mpr ⟨T.size - 1, List.mem_range.mpr (by omega), Option.mem_toList.mp member⟩
  · rw [Repeats, ← SimpleByteArrayLongMap.itemAt_isSome]
    split
    · rename_i zero
      exact iff_of_false (not_not_intro rfl) fun both => both.1 zero
    · rename_i other
      rw [and_iff_right other]
      cases SimpleByteArrayLongMap.itemAt T (st.getRawMap site) (T.size - 1) with
      | none => exact iff_of_false (not_not_intro rfl) Bool.false_ne_true
      | some e => exact iff_of_true (List.cons_ne_nil e []) rfl

/-! ### Puts of a writer that is alone -/

theorem Writing.counted (uses : a.Uses T) (writing : Writing a T ⟨w, [], done⟩) :
    w.np = a.offset + bytesOf done ∧ w.map.currentSz = done.length ∧ (done.map Reserved.hash).Nodup := by
  obtain ⟨s, run, reflects⟩ := writing_reflects uses writing
  have counted := run_counted run
  have live : s.live = done := by rw [Calls.live, reflects.waiting, reflects.returned, List.nil_append]
  have np := counted.np
  have size := counted.size
  rw [reflects.np, live] at np
  rw [reflects.size, live] at size
  exact ⟨np, size, live ▸ counted.single⟩

structure Room (a : Archive) (w : Writer) : Prop where
  writeable : w.writeable = true
  np : w.np < a.blocksz
  size : w.map.currentSz < a.wMaxSz

theorem reserveIn_exists {map : SimpleByteArrayLongMap.State} (room : Room a w)
    (answer : SimpleByteArrayLongMap.put a.hashLength w.map hash (entryOf a hash (a.encode chunk) w.np) = (map, .ok false)) :
    reserveIn a w hash chunk alone = ({ w with map := map }, .error .hashExists) := by
  unfold reserveIn
  dsimp only
  rw [if_neg (by decide), if_neg (by rw [room.writeable]; decide), if_neg (Int.not_le.mpr room.np), if_neg (by decide),
    if_neg (Nat.not_le.mpr room.size), if_neg (by decide), answer]

theorem reserveIn_placed {map : SimpleByteArrayLongMap.State} (room : Room a w)
    (answer : SimpleByteArrayLongMap.put a.hashLength w.map hash (entryOf a hash (a.encode chunk) w.np) = (map, .ok true)) :
    reserveIn a w hash chunk alone = ({ w with map := map, np := w.np + 4 + hash.length + 4 + (a.encode chunk).length },
      .ok ⟨hash, chunk, a.encode chunk, w.np⟩) := by
  unfold reserveIn
  dsimp only
  rw [if_neg (by decide), if_neg (by rw [room.writeable]; decide), if_neg (Int.not_le.mpr room.np), if_neg (by decide),
    if_neg (Nat.not_le.mpr room.size), if_neg (by decide), answer]

theorem Writing.appended {w' : Writer} (writing : Writing a T ⟨w, [], done⟩) (call : Call a hash chunk)
    (plain : IsKey T hash) (result : reserveIn a w hash chunk alone = (w', .ok r)) :
    Writing a T ⟨w'.writeRecord r, [], r :: done⟩ := by
  have reserved : Writing a T ⟨w', [r], done⟩ := by
    have placed : Writing a T (Writers.reserve a ⟨w, [], done⟩ hash chunk alone) := writing.reserve call plain
    rwa [Writers.reserve, result] at placed
  have written := reserved.write List.mem_cons_self
  rwa [Writers.write, List.erase_cons_head] at written

theorem putChunk_cases (uses : a.Uses T) (writing : Writing a T ⟨w, [], done⟩) (call : Call a hash chunk)
    (plain : IsKey T hash) :
    (¬ Room a w ∧ ∃ w' e, putChunk a w hash chunk alone = (w', .error e) ∧ e ≠ .hashExists ∧
      (w.writeable = true → e = .archiveFull)) ∨
    (Room a w ∧ hash ∈ done.map Reserved.hash ∧ putChunk a w hash chunk alone = (w, .error .hashExists)) ∨
    (Room a w ∧ hash ∉ done.map Reserved.hash ∧ ∃ w' r, putChunk a w hash chunk alone = (w', .ok ()) ∧ r.hash = hash ∧
      r.chunk = chunk ∧ w'.writeable = true ∧ Writing a T ⟨w', [], r :: done⟩) := by
  by_cases closed : w.writeable = false
  · refine .inl ⟨fun room => ?_, w, .readOnlyArchive, ?_, by decide, fun writeable => ?_⟩
    · rw [room.writeable] at closed
      cases closed
    · unfold putChunk reserveIn
      rw [if_neg (by decide), if_pos closed]
    · rw [writeable] at closed
      cases closed
  by_cases full : a.blocksz ≤ w.np
  · refine .inl ⟨fun room => absurd room.np (Int.not_lt.mpr full), { w with writeable := false }, .archiveFull, ?_, by decide,
      fun _ => rfl⟩
    unfold putChunk reserveIn
    rw [if_neg (by decide), if_neg closed, if_pos full]
  by_cases many : a.wMaxSz ≤ w.map.currentSz
  · refine .inl ⟨fun room => absurd room.size (Nat.not_lt.mpr many), { w with writeable := false }, .archiveFull, ?_, by decide,
      fun _ => rfl⟩
    unfold putChunk reserveIn
    rw [if_neg (by decide), if_neg closed, if_neg full, if_neg (by decide), if_pos many]
  have room : Room a w := ⟨Bool.not_eq_false _ ▸ closed, Int.not_le.mp full, Nat.lt_of_not_le many⟩
  obtain ⟨s, run, reflects⟩ := writing_reflects uses writing
  obtain ⟨kept, -⟩ := run_kept run
  have live : s.live = done := by rw [Calls.live, reflects.waiting, reflects.returned, List.nil_append]
  rcases put_answers uses reflects kept (run_counted run) plain room.size (entryOf a hash (a.encode chunk) w.np) with
    ⟨known, answer⟩ | ⟨fresh, i, answer⟩
  · obtain ⟨r, member, own⟩ := kept.known hash known
    refine .inr (.inl ⟨room, List.mem_map.mpr ⟨r, live ▸ member, own⟩, ?_⟩)
    rw [putChunk, reserveIn_exists room answer]
  · have result := reserveIn_placed room answer
    have absent : hash ∉ done.map Reserved.hash := by
      intro known
      obtain ⟨r, member, own⟩ := List.mem_map.mp known
      have entry := kept.entry r (live ▸ member)
      rw [own, fresh] at entry
      cases entry
    refine .inr (.inr ⟨room, absent, _, _, ?_, rfl, rfl, ?_, writing.appended call plain result⟩)
    · rw [putChunk, result]
    · exact room.writeable

theorem putChunk_unopened {found : Found} (free : found.uploading = false) (mapped : found.noMap = false)
    (missing : found.noFile = true) (a : Archive) (w : Writer) (hash chunk : Bytes) :
    ∃ w' e, putChunk a w hash chunk found = (w', .error e) ∧ e ≠ .hashExists ∧ (Room a w → e = .io) := by
  unfold putChunk reserveIn
  dsimp only
  rw [free, mapped, missing, if_neg Bool.false_ne_true]
  by_cases closed : w.writeable = false
  · rw [if_pos closed]
    refine ⟨w, .readOnlyArchive, rfl, by decide, fun room => ?_⟩
    rw [room.writeable] at closed
    cases closed
  rw [if_neg closed]
  by_cases full : a.blocksz ≤ w.np
  · rw [if_pos full]
    exact ⟨_, .archiveFull, rfl, by decide, fun room => absurd room.np (Int.not_lt.mpr full)⟩
  rw [if_neg full, if_neg Bool.false_ne_true]
  by_cases many : a.wMaxSz ≤ w.map.currentSz
  · rw [if_pos many]
    exact ⟨_, .archiveFull, rfl, by decide, fun room => absurd room.size (Nat.not_lt.mpr many)⟩
  rw [if_neg many, if_pos rfl]
  exact ⟨w, .io, rfl, by decide, fun _ => rfl⟩

end EncryptedDedup.SDFS.HashBlobArchive
