import EncryptedDedup.SDFS.ArchiveFiles
import EncryptedDedup.SDFS.HashBlobArchiveRun
import EncryptedDedup.SDFS.SimpleMapIteration

/-!
# Writers of an archive with its map

Calls that put into the map in its file do what calls do that put into a function, and leave files from which every
chunk is read.
-/

namespace EncryptedDedup.SDFS.HashBlobArchive
open SimpleByteArrayLongMap (Layout IsKey Fits Knows contents)

variable {a : Archive} {T : Layout} {hash chunk : Bytes} {found : Found} {r : Reserved}

structure Writers where
  writer : Writer
  /-- The records that are still to be written. -/
  waiting : List Reserved
  /-- The records of the calls that have returned. -/
  returned : List Reserved

def Writers.reserve (a : Archive) (w : Writers) (hash chunk : Bytes) (found : Found) : Writers :=
  match reserveIn a w.writer hash chunk found with
  | (writer, .ok r) => { w with writer := writer, waiting := r :: w.waiting }
  | (writer, .error _) => { w with writer := writer }

def Writers.write (w : Writers) (r : Reserved) : Writers := ⟨w.writer.writeRecord r, w.waiting.erase r, r :: w.returned⟩

/-- Interleavings of calls whose writes do not fail. -/
inductive Writing (a : Archive) (T : Layout) : Writers → Prop
  | new : Writing a T ⟨.new a T.size, [], []⟩
  | reserve {w hash chunk found} : Writing a T w → Call a hash chunk → IsKey T hash →
      Writing a T (w.reserve a hash chunk found)
  | write {w r} : Writing a T w → r ∈ w.waiting → Writing a T (w.write r)

/-- The archive has its map in a file of the layout, and its data is local. -/
structure Archive.Uses (a : Archive) (T : Layout) : Prop where
  lawful : a.Lawful
  here : a.localData = true
  hashLength : T.hashLength = a.hashLength
  version : T.version = a.version
  wMaxSz : a.wMaxSz = T.size * 3 / 4
  large : 2 < T.size

/-! ### Counts -/

def bytesOf (rs : List Reserved) : Nat := (rs.map fun r => r.bytes.length).sum

@[simp] theorem bytesOf_nil : bytesOf [] = 0 := rfl

@[simp] theorem bytesOf_cons (r : Reserved) (rs : List Reserved) : bytesOf (r :: rs) = r.bytes.length + bytesOf rs :=
  List.sum_cons

theorem bytesOf_perm {rs rs' : List Reserved} (perm : rs.Perm rs') : bytesOf rs = bytesOf rs' :=
  List.Perm.sum_eq (List.Perm.map (fun r : Reserved => r.bytes.length) perm)

structure Counted (a : Archive) (s : Calls) : Prop where
  np : s.archive.np = a.offset + bytesOf s.live
  size : s.archive.currentSize = s.live.length
  single : (s.live.map Reserved.hash).Nodup

theorem Counted.reserve {s : Calls} (counted : Counted a s) (kept : Kept a s) :
    Counted a (step a s (.reserve hash chunk found)) := by
  rw [step]
  rcases reserve_cases a s.archive hash chunk found with ⟨writeable, e, result⟩ | ⟨r, record, -, fresh, result⟩
  · rw [result]
    exact ⟨counted.np, counted.size, counted.single⟩
  · rw [result]
    have np := counted.np
    refine ⟨?_, congrArg Nat.succ counted.size, ?_⟩
    · show s.archive.np + (r.bytes.length : Int) = a.offset + (bytesOf (r :: s.live) : Nat)
      rw [bytesOf_cons]
      omega
    · show ((r :: s.live).map Reserved.hash).Nodup
      refine List.nodup_cons.mpr ⟨fun known => ?_, counted.single⟩
      obtain ⟨r', member, same⟩ := List.mem_map.mp known
      have entry := kept.entry r' member
      have own : r.hash = hash := congrArg Reserved.hash record
      rw [same, own, fresh] at entry
      cases entry

theorem Counted.write {s : Calls} (counted : Counted a s) (member : r ∈ s.waiting) : Counted a (step a s (.write r)) := by
  have live := live_write member
  refine ⟨?_, ?_, ?_⟩
  · rw [show bytesOf (step a s (.write r)).live = bytesOf s.live from bytesOf_perm live]
    exact counted.np
  · rw [show (step a s (.write r)).live.length = s.live.length from live.length_eq]
    exact counted.size
  · exact (live.map Reserved.hash).nodup_iff.mpr counted.single

theorem run_counted {s : Calls} (run : Run a s) : Counted a s := by
  induction run with
  | new => exact ⟨(Int.add_zero _).symm, rfl, List.nodup_nil⟩
  | @step s e before possible meets ih =>
    cases e with
    | reserve hash chunk found => exact ih.reserve (run_kept before).1
    | write r => exact ih.write possible
    | writeFails r n => exact meets.elim

/-! ### The map in its file -/

/-- What holds between the calls with a map in its file and those with a function. -/
structure Reflects (a : Archive) (T : Layout) (w : Writers) (s : Calls) : Prop where
  writeable : s.archive.writeable = w.writer.writeable
  np : s.archive.np = w.writer.np
  size : s.archive.currentSize = w.writer.map.currentSz
  waiting : s.waiting = w.waiting
  returned : s.returned = w.returned
  knows : Knows T w.writer.map s.archive.map
  own : w.writer.map.mapped.isSome = true
  opened : w.writer.map.closed = false
  plain : ∀ r ∈ s.live, IsKey T r.hash
  file : ∀ x b, s.archive.file x = some b → byteAt w.writer.f x = some b
  front : a.offset ≤ w.writer.f.length
  most : w.writer.f.length ≤ w.writer.np

theorem header_length (a : Archive) : a.header.length = a.offset := by
  unfold Archive.header
  split
  · rename_i zero
    rw [Archive.offset, if_pos zero]
    rfl
  · exact length_resize _ _

theorem reflects_new (uses : a.Uses T) : Reflects a T ⟨.new a T.size, [], []⟩ (.new a) := by
  have map : SimpleByteArrayLongMap.setUp a.hashLength T.size a.version none =
      SimpleByteArrayLongMap.setUp T.hashLength T.size T.version none := by
    rw [uses.hashLength, uses.version]
  have knows := SimpleByteArrayLongMap.new_knows T
  have state := SimpleByteArrayLongMap.setUp_new T
  refine ⟨rfl, rfl, ?_, rfl, rfl, ?_, ?_, ?_, fun r member => (nomatch member), fun _ _ => id, ?_, ?_⟩
  · rw [Writer.new, map, state]
    rfl
  · rw [Writer.new, map]
    exact knows
  · rw [Writer.new, map, state]
    rfl
  · rw [Writer.new, map, state]
  · exact (header_length a).ge
  · exact Int.ofNat_le.mpr (header_length a).le

theorem size_le_of_full {s : Calls} {m : SimpleByteArrayLongMap.State} (knows : Knows T m s.archive.map) (kept : Kept a s)
    (counted : Counted a s) (full : ∀ i < T.size, SimpleByteArrayLongMap.slotAt T m i ≠ .free) :
    T.size ≤ s.archive.currentSize := by
  have stored : ∀ i < T.size, SimpleByteArrayLongMap.StoredAt T m
      (SimpleByteArrayLongMap.keyAt T.hashLength m (i * T.el)) i :=
    fun i inside => SimpleByteArrayLongMap.slotAt_held.mpr
      ⟨⟨inside, mt (SimpleByteArrayLongMap.slotAt_free inside).mpr (full i inside)⟩, rfl⟩
  have plain : ∀ i < T.size, IsKey T (SimpleByteArrayLongMap.keyAt T.hashLength m (i * T.el)) :=
    fun i inside => SimpleByteArrayLongMap.isKey_keyAt knows.sound inside (full i inside)
  have keys := Finset.card_le_card_of_injOn (s := Finset.range T.size) (t := (s.live.map Reserved.hash).toFinset)
    (fun i => SimpleByteArrayLongMap.keyAt T.hashLength m (i * T.el)) (fun i member => ?_) (fun i mi j mj same => ?_)
  · rw [Finset.card_range] at keys
    refine Nat.le_trans keys ?_
    rw [counted.size, ← List.length_map Reserved.hash]
    exact List.toFinset_card_le _
  · have inside := Finset.mem_range.mp member
    have known : s.archive.map (SimpleByteArrayLongMap.keyAt T.hashLength m (i * T.el)) ≠ none :=
      fun nothing => (knows.absent (plain i inside)).mp nothing i (stored i inside)
    obtain ⟨r, live, own⟩ := kept.known _ known
    exact List.mem_toFinset.mpr (List.mem_map.mpr ⟨r, live, own⟩)
  · have first := Finset.mem_range.mp mi
    have second := Finset.mem_range.mp mj
    dsimp only at same
    refine SimpleByteArrayLongMap.StoredAt.unique knows.sound (plain j second) (stored j second) ?_
    rw [← same]
    exact stored i first

theorem bmod_long (x : Int) : -2 ^ 63 ≤ x.bmod (2 ^ 64) ∧ x.bmod (2 ^ 64) < 2 ^ 63 := by
  have low := Int.le_bmod (x := x) (m := 2 ^ 64) (by decide)
  have high := Int.bmod_lt (x := x) (m := 2 ^ 64) (by decide)
  norm_num at low high ⊢
  exact ⟨low, high⟩

theorem entryOf_fits (uses : a.Uses T) (placed : Placed a r) : Fits T (entryOf a r.hash r.stored r.cp) := by
  unfold Fits
  rw [uses.version]
  by_cases first : a.version = 0
  · have low := placed.low
    have high := placed.high
    have fits := uses.lawful.fits
    have length := placed.call.hashLength
    rw [if_pos (by exact_mod_cast first), entryOf, if_pos first, placed.pos uses.lawful]
    omega
  · rw [if_neg (by exact_mod_cast first), entryOf, if_neg first]
    exact bmod_long _

theorem put_answers {w : Writers} {s : Calls} (uses : a.Uses T) (reflects : Reflects a T w s) (kept : Kept a s)
    (counted : Counted a s) (plain : IsKey T hash) (few : w.writer.map.currentSz < a.wMaxSz) (value : Int) :
    (s.archive.map hash ≠ none ∧
      SimpleByteArrayLongMap.put a.hashLength w.writer.map hash value = (w.writer.map, .ok false)) ∨
    (s.archive.map hash = none ∧ ∃ i, SimpleByteArrayLongMap.put a.hashLength w.writer.map hash value =
      (SimpleByteArrayLongMap.written T w.writer.map hash value i, .ok true)) := by
  have knows := reflects.knows
  rw [← uses.hashLength]
  by_cases known : ∃ i, SimpleByteArrayLongMap.StoredAt T w.writer.map hash i
  · obtain ⟨i, stored⟩ := known
    refine .inl ⟨fun nothing => (knows.absent plain).mp nothing i stored, ?_⟩
    exact SimpleByteArrayLongMap.put_stored knows.sound plain reflects.opened stored value
  · have absent := not_exists.mp known
    refine .inr ⟨(knows.absent plain).mpr absent, ?_⟩
    rcases SimpleByteArrayLongMap.put_absent knows.sound plain reflects.opened absent value with
      ⟨i, placed, -⟩ | ⟨-, stuck⟩ | ⟨-, full⟩
    · rw [reflects.own] at placed
      exact ⟨i, placed⟩
    · exact absurd stuck.1 uses.large.ne'
    · have many := size_le_of_full knows kept counted full
      have bound := uses.wMaxSz
      have size := reflects.size
      have large := uses.large
      omega

theorem Reflects.failed {w : Writers} {s : Calls} (reflects : Reflects a T w s) (writeable : Bool) :
    Reflects a T { w with writer := { w.writer with writeable := writeable } } { s with archive :=
      ⟨writeable, w.writer.np, s.archive.map, w.writer.map.currentSz, s.archive.file⟩ } :=
  ⟨rfl, rfl, rfl, reflects.waiting, reflects.returned, reflects.knows, reflects.own, reflects.opened, reflects.plain,
    reflects.file, reflects.front, reflects.most⟩

theorem Reflects.placed {w : Writers} {s : Calls} {i : Nat} {value : Int} {np : Int} (uses : a.Uses T)
    (reflects : Reflects a T w s) (plain : IsKey T hash) (fits : Fits T value)
    (answer : SimpleByteArrayLongMap.put a.hashLength w.writer.map hash value =
      (SimpleByteArrayLongMap.written T w.writer.map hash value i, .ok true))
    (record : r.hash = hash) (more : w.writer.np ≤ np) :
    Reflects a T
      { w with
        writer := { w.writer with np := np, map := SimpleByteArrayLongMap.written T w.writer.map hash value i }
        waiting := r :: w.waiting }
      { s with
        archive := ⟨w.writer.writeable, np, Function.update s.archive.map hash (some value), w.writer.map.currentSz + 1,
          s.archive.file⟩
        waiting := r :: s.waiting } := by
  rw [← uses.hashLength] at answer
  have knows := SimpleByteArrayLongMap.put_true reflects.knows plain fits (by rw [answer])
  rw [answer] at knows
  refine ⟨rfl, rfl, ?_, congrArg (r :: ·) reflects.waiting, reflects.returned, knows, ?_, reflects.opened, ?_,
    reflects.file, reflects.front, Int.le_trans reflects.most more⟩
  · show w.writer.map.currentSz + 1 = if w.writer.map.mapped.isSome then _ else _
    rw [if_pos reflects.own]
  · show (w.writer.map.mapped.map (insert i)).isSome = true
    rw [Option.isSome_map, reflects.own]
  · intro r' member
    rcases List.mem_cons.mp member with rfl | earlier
    · rw [record]
      exact plain
    · exact reflects.plain r' earlier

/-- A call with a map in its file does what some call with a function does. -/
theorem reserve_reflects {w : Writers} {s : Calls} (uses : a.Uses T) (reflects : Reflects a T w s) (kept : Kept a s)
    (counted : Counted a s) (call : Call a hash chunk) (plain : IsKey T hash) (found : Found) :
    ∃ found', Reflects a T (w.reserve a hash chunk found) (step a s (.reserve hash chunk found')) := by
  unfold Writers.reserve reserveIn step HashBlobArchive.reserve
  dsimp only
  rw [reflects.writeable, reflects.np, reflects.size]
  by_cases uploading : found.uploading = true
  · refine ⟨found, ?_⟩
    rw [if_pos uploading, if_pos uploading]
    exact reflects
  by_cases closed : w.writer.writeable = false
  · refine ⟨found, ?_⟩
    rw [if_neg uploading, if_pos closed, if_neg uploading, if_pos closed]
    exact reflects
  by_cases full : a.blocksz ≤ w.writer.np
  · refine ⟨found, ?_⟩
    rw [if_neg uploading, if_neg closed, if_pos full, if_neg uploading, if_neg closed, if_pos full]
    exact reflects.failed false
  by_cases noMap : found.noMap = true
  · refine ⟨found, ?_⟩
    rw [if_neg uploading, if_neg closed, if_neg full, if_pos noMap, if_neg uploading, if_neg closed, if_neg full,
      if_pos noMap]
    exact reflects
  by_cases many : a.wMaxSz ≤ w.writer.map.currentSz
  · refine ⟨found, ?_⟩
    rw [if_neg uploading, if_neg closed, if_neg full, if_neg noMap, if_pos many, if_neg uploading, if_neg closed,
      if_neg full, if_neg noMap, if_pos many]
    exact reflects.failed false
  by_cases noFile : found.noFile = true
  · refine ⟨found, ?_⟩
    rw [if_neg uploading, if_neg closed, if_neg full, if_neg noMap, if_neg many, if_pos noFile, if_neg uploading,
      if_neg closed, if_neg full, if_neg noMap, if_neg many, if_pos noFile]
    exact reflects
  refine ⟨{ found with map := .works }, ?_⟩
  rw [if_neg uploading, if_neg closed, if_neg full, if_neg noMap, if_neg many, if_neg noFile, if_neg uploading,
    if_neg closed, if_neg full, if_neg noMap, if_neg many, if_neg noFile]
  have few : w.writer.map.currentSz < a.wMaxSz := Nat.lt_of_not_le many
  rcases put_answers uses reflects kept counted plain few (entryOf a hash (a.encode chunk) w.writer.np) with
    ⟨known, answer⟩ | ⟨fresh, i, answer⟩
  · rw [answer, if_pos (Option.isSome_iff_ne_none.mpr known)]
    exact reflects.failed w.writer.writeable
  · have low : 0 ≤ w.writer.np := by
      have after := kept.low
      rw [reflects.np] at after
      omega
    have fits := entryOf_fits uses (r := ⟨hash, chunk, a.encode chunk, w.writer.np⟩)
      ⟨call, rfl, low, Int.not_le.mp full⟩
    rw [answer, fresh]
    exact reflects.placed uses plain fits answer rfl (by omega)

theorem byteAt_writeAt {f b : Bytes} {p : Nat} (x : Int) : byteAt (writeAt f p b) x =
    if Write.covers ⟨b, p⟩ x = true then byteAt b (x - p)
    else if f.length ≤ x ∧ 0 ≤ x ∧ x < p then some 0 else byteAt f x := by
  have covers : Write.covers ⟨b, p⟩ x = true ↔ p ≤ x ∧ x < p + b.length := Write.covers_iff
  by_cases low : 0 ≤ x
  · have left : byteAt (writeAt f p b) x = (writeAt f p b)[x.toNat]? := if_pos low
    have right : byteAt f x = f[x.toNat]? := if_pos low
    rw [left, right, getElem?_writeAt]
    by_cases before : x.toNat < p
    · have uncovered : ¬ Write.covers ⟨b, p⟩ x = true := by
        rw [covers]
        omega
      rw [if_pos before, if_neg uncovered]
      by_cases old : x.toNat < f.length
      · rw [if_pos old, if_neg (by omega)]
      · rw [if_neg old, if_pos (by omega)]
    · rw [if_neg before]
      by_cases within : x.toNat < p + b.length
      · have index : (x - p).toNat = x.toNat - p := by omega
        rw [if_pos within, if_pos (by rw [covers]; omega), byteAt, if_pos (by omega), index]
      · rw [if_neg within, if_neg (by rw [covers]; omega), if_neg (by omega)]
  · rw [if_neg (by rw [covers]; omega), if_neg (by omega), byteAt, byteAt, if_neg low, if_neg low]

theorem write_reflects {w : Writers} {s : Calls} (reflects : Reflects a T w s) (kept : Kept a s) (member : r ∈ w.waiting) :
    Reflects a T (w.write r) (step a s (.write r)) := by
  have live : r ∈ s.live := List.mem_append_left _ (reflects.waiting ▸ member)
  have low := (kept.placed r live).low
  have place : ((r.cp.toNat : Nat) : Int) = r.cp := Int.toNat_of_nonneg low
  have length : (writeAt w.writer.f r.cp.toNat r.bytes).length = _ := length_writeAt _ _ _
  refine ⟨reflects.writeable, reflects.np, reflects.size, congrArg (List.erase · r) reflects.waiting,
    congrArg (r :: ·) reflects.returned, reflects.knows, reflects.own, reflects.opened, ?_, ?_, ?_, ?_⟩
  · intro r' there
    refine reflects.plain r' ((live_write ?_).mem_iff.mp there)
    rw [reflects.waiting]
    exact member
  · intro x b there
    show byteAt (writeAt w.writer.f r.cp.toNat r.bytes) x = some b
    replace there : written s.archive.file ⟨r.bytes.take r.bytes.length, r.cp⟩ x = some b := there
    rw [List.take_length, written, patch] at there
    rw [byteAt_writeAt, place]
    by_cases covered : Write.covers ⟨r.bytes, r.cp⟩ x = true
    · rw [if_pos covered] at there ⊢
      rw [← there]
      exact Write.byteAt_of_covers covered
    · rw [if_neg covered] at there ⊢
      have byte := reflects.file x b there
      rw [if_neg, byte]
      rintro ⟨past, -⟩
      rw [byteAt_eq_none (by omega)] at byte
      cases byte
  · show a.offset ≤ (writeAt w.writer.f r.cp.toNat r.bytes).length
    rw [length]
    exact Nat.le_trans reflects.front (Nat.le_max_left _ _)
  · show ((writeAt w.writer.f r.cp.toNat r.bytes).length : Int) ≤ w.writer.np
    have most := reflects.most
    have bytes := r.length_bytes
    have inside : r.cp + r.bytes.length ≤ s.archive.np := by
      have last := ((kept.tiled.all (r.cp + r.bytes.length - 1)).mpr ⟨r, live, by omega, by omega⟩).2
      omega
    rw [reflects.np] at inside
    rw [length]
    omega

/-- Every interleaving with a map in its file is one with a function. -/
theorem writing_reflects (uses : a.Uses T) {w : Writers} (writing : Writing a T w) :
    ∃ s, Run a s ∧ Reflects a T w s := by
  induction writing with
  | new => exact ⟨.new a, .new, reflects_new uses⟩
  | @reserve w hash chunk found _ call plain ih =>
    obtain ⟨s, run, reflects⟩ := ih
    obtain ⟨found', reflects'⟩ := reserve_reflects uses reflects (run_kept run).1 (run_counted run) call plain found
    exact ⟨_, .step (e := .reserve hash chunk found') run call trivial, reflects'⟩
  | @write w r _ member ih =>
    obtain ⟨s, run, reflects⟩ := ih
    have waits : r ∈ s.waiting := by
      rw [reflects.waiting]
      exact member
    exact ⟨_, .step (e := .write r) run waits (.inr uses.here), write_reflects reflects (run_kept run).1 member⟩

/-! ### What the writers leave -/

def recordOf (rs : List Reserved) (hash : Bytes) : Option Reserved := rs.find? fun r => r.hash = hash

def chunkOf (rs : List Reserved) (hash : Bytes) : Option Bytes := (recordOf rs hash).map Reserved.chunk

theorem recordOf_some {rs : List Reserved} (single : (rs.map Reserved.hash).Nodup) :
    recordOf rs hash = some r ↔ r ∈ rs ∧ r.hash = hash := by
  constructor
  · intro found
    have same := List.find?_some (show rs.find? (fun r => r.hash = hash) = some r from found)
    exact ⟨List.mem_of_find?_eq_some found, of_decide_eq_true same⟩
  · rintro ⟨member, same⟩
    cases found : recordOf rs hash with
    | none => exact absurd (decide_eq_true same) (List.find?_eq_none.mp found r member)
    | some r' =>
      have there := List.mem_of_find?_eq_some found
      have own := List.find?_some (show rs.find? (fun r => r.hash = hash) = some r' from found)
      rw [List.inj_on_of_nodup_map single there member ((of_decide_eq_true own).trans same.symm)]

structure Sealed (T : Layout) (st : Stored) (rs : List Reserved) : Prop where
  uses : st.setup.Uses T
  placed : ∀ r ∈ rs, Placed st.setup r
  plain : ∀ r ∈ rs, IsKey T r.hash
  single : (rs.map Reserved.hash).Nodup
  intact : ∀ r ∈ rs, Intact (byteAt st.f) r
  length : st.f.length = st.setup.offset + bytesOf rs
  map : ∃ m, Knows T m (fun hash => (recordOf rs hash).map fun r => entryOf st.setup r.hash r.stored r.cp) ∧ m.kFC = st.map

theorem Writing.stored (uses : a.Uses T) {w : Writer} {rs : List Reserved} (writing : Writing a T ⟨w, [], rs⟩) :
    Sealed T ⟨a, w.f, w.map.kFC⟩ rs := by
  obtain ⟨s, run, reflects⟩ := writing_reflects uses writing
  obtain ⟨kept, -⟩ := run_kept run
  have counted := run_counted run
  have live : s.live = rs := by rw [Calls.live, reflects.waiting, reflects.returned, List.nil_append]
  have returned : s.returned = rs := reflects.returned
  have intact : ∀ r ∈ rs, Intact (byteAt w.f) r := by
    intro r member x inside
    obtain ⟨v, byte⟩ := @byteAt_of_lt r.bytes (x - r.cp) (by have := inside.1; omega) (by have := inside.2; omega)
    rw [byte]
    exact reflects.file x v ((kept.intact r (returned ▸ member) x inside).trans byte)
  refine ⟨uses, live ▸ kept.placed, live ▸ reflects.plain, live ▸ counted.single, intact, ?_, w.map, ⟨?_, ?_⟩, rfl⟩
  · have np := counted.np
    have most := reflects.most
    have front := reflects.front
    rw [reflects.np, live] at np
    -- The last byte is one of a record, or the archive has none.
    refine Nat.le_antisymm ?_ (Nat.le_of_not_lt fun short => ?_)
    · show w.f.length ≤ a.offset + bytesOf rs
      replace most : (w.f.length : Int) ≤ w.np := most
      replace np : w.np = a.offset + bytesOf rs := np
      omega
    · replace short : w.f.length < a.offset + bytesOf rs := short
      replace front : a.offset ≤ w.f.length := front
      replace np : w.np = a.offset + bytesOf rs := np
      have inside := (kept.tiled.all (a.offset + bytesOf rs - 1)).mp (by
        rw [reflects.np]
        show _ ∧ _ < w.np
        omega)
      obtain ⟨r, member, covered⟩ := inside
      have byte := intact r (live ▸ member) _ covered
      obtain ⟨v, there⟩ := @byteAt_of_lt r.bytes (a.offset + bytesOf rs - 1 - r.cp) (by have := covered.1; omega)
        (by have := covered.2; omega)
      rw [there, byteAt_eq_none (by omega)] at byte
      cases byte
  · exact reflects.knows.sound
  · intro key plain
    rw [reflects.knows.same key plain]
    cases there : recordOf rs key with
    | none =>
      by_contra known
      obtain ⟨r, member, same⟩ := kept.known key known
      exact absurd (decide_eq_true same) (List.find?_eq_none.mp there r (live ▸ member))
    | some r =>
      obtain ⟨member, same⟩ := (recordOf_some (live ▸ counted.single)).mp there
      rw [← same]
      exact kept.entry r (live ▸ member)

end EncryptedDedup.SDFS.HashBlobArchive
