import EncryptedDedup.SDFS.CollectorSafety
import EncryptedDedup.SDFS.MapHeader

/-!
# Snapshots

`snapshot` copies the map of a file, and `index` adds a reference for every extent of the copy. The buffers of the
file are flushed before only if `Main.safeSync` is set. `vanish` removes the references of the extents again.
-/

namespace EncryptedDedup.SDFS

/-! ### References to stored chunks -/

/-- `Longs.fromByteArray(hashloc)`, with its sign. -/
def HashLocPair.val (h : HashLocPair) : Int := long h.location

namespace Services

variable {σ : Type} (V : Services σ)

/-- `DedupFileStore.addRef`, where references are counted and there is no lookup filter. -/
def addRef (store : RocksDBMap) (h : HashLocPair) (ct : Int) : Bool × RocksDBMap :=
  if V.counts h then store.claimKey h.hash h.val ct else (true, store)

def removeRef (store : RocksDBMap) (h : HashLocPair) (ct : Int) : Bool × RocksDBMap :=
  if V.counts h then store.claimKey h.hash h.val (-1 * ct) else (true, store)

end Services

namespace LongByteArrayMap

variable {σ : Type} (V : Services σ) (K : Config) (m : LongByteArrayMap)

/-- The loop of `index` and of `vanish`: the extents that it comes to, and how it ends. -/
def passExtents (nbuf : Option Bytes) : Outcome (List HashLocPair × Except Thrown Unit) :=
  (takeNext (nextValue K m) (fun _ => true) (m.db.length + 1) ⟨0, nbuf⟩).map fun r =>
    (r.1.flatMap fun ck => ck.ar.values, r.2)

def index (store : RocksDBMap) : Outcome (Except Thrown Unit × RocksDBMap) :=
  (passExtents V.config m none).map fun r => (r.2, r.1.foldl (fun store h => (V.addRef store h 1).2) store)

/-- `copy` with `index`. The file is copied as it is. -/
def copy (store : RocksDBMap) : Outcome (Except Thrown LongByteArrayMap × RocksDBMap) :=
  let dest := openFile m.db
  (index V dest store).map fun r => (r.1.map fun _ => dest, r.2)

/-- `vanish`, with the buffer that the iterator has left. -/
def vanish (nbuf : Option Bytes) (store : RocksDBMap) : Outcome (Except Thrown Unit × RocksDBMap) :=
  (passExtents V.config m nbuf).map fun r => (r.2, r.1.foldl (fun store h => (V.removeRef store h 1).2) store)

end LongByteArrayMap

/-- A file, the counts of the chunk store, and what the flush of the buffers of the file has the chunk store do. -/
structure Volume where
  file : MappedFile
  store : RocksDBMap
  flushing : List RocksDBMap.Step

namespace Volume

variable {σ : Type} (V : Services σ) (K : Config) (volume : Volume)

/-- All buffers are flushed. A step that throws changes nothing. -/
def writeCache : Volume where
  file := volume.file.writeCache K
  store := volume.flushing.foldl (fun store s => (store.step s).toOption.getD store) volume.store
  flushing := []

def sync (safeSync : Bool) : Volume := if safeSync then volume.writeCache K else volume

def snapshot (safeSync : Bool) : Outcome (Except Thrown LongByteArrayMap × Volume) :=
  let volume := volume.sync V.config safeSync
  (volume.file.map.copy V volume.store).map fun r => (r.1, { volume with store := r.2 })

end Volume

/-! ### What a snapshot should be -/

namespace RocksDBMap

def located (m : RocksDBMap) (hash : Bytes) : Option CountRecord :=
  match m.tempHt.get hash with
  | some bk => some bk
  | none => m.dbs.get hash

/-- The references to the chunk with a hash that is at a location. -/
def chunkReferences (m : RocksDBMap) (hash : Bytes) (pos : Int) : Int :=
  match m.located hash with
  | some r => if r.pos = pos then r.ct else 0
  | none => 0

end RocksDBMap

variable {σ : Type} (V : Services σ)

/-- How many of the extents refer to the chunk. -/
def Services.referring (hash : Bytes) (pos : Int) (hs : List HashLocPair) : Nat :=
  hs.countP fun h => V.counts h && (h.hash = hash && h.val = pos)

def LongByteArrayMap.allExtents (K : Config) (m : LongByteArrayMap) : List HashLocPair :=
  extents K m (List.range (slotCount K m))

/-- The chunk of every extent is stored where the extent has it, and so many times as many references as there are
extents can be added to its count. -/
def Services.Counted (store : RocksDBMap) (times : Int) (hs : List HashLocPair) : Prop :=
  ∀ h ∈ hs, V.counts h = true → ∃ r, store.located h.hash = some r ∧ r.pos = h.val ∧ long r.ct = r.ct ∧
    long (r.ct + times * V.referring h.hash h.val hs) = r.ct + times * V.referring h.hash h.val hs

/-- So many times as many references to every chunk as there are extents are added. -/
def Services.Adds (store store' : RocksDBMap) (times : Int) (hs : List HashLocPair) : Prop :=
  ∀ hash pos, store'.chunkReferences hash pos = store.chunkReferences hash pos + times * V.referring hash pos hs

/-- The snapshot denotes what the file does, every extent of it adds one reference, and when it vanishes these are removed,
so that at once the references are those from before. The file has its content from the writes that are not flushed too;
the references and the map of the file are compared with those that `sync` leaves. -/
structure Volume.Snapshots (chunks : σ) (direct safeSync : Bool) (volume after : Volume) (snap : LongByteArrayMap) : Prop where
  denotes : ∀ p, LongByteArrayMap.fileByte V chunks direct snap p =
    LongByteArrayMap.fileByte V chunks direct (volume.writeCache V.config).file.map p
  adds : V.Adds (volume.sync V.config safeSync).store after.store 1 (LongByteArrayMap.allExtents V.config snap)
  vanishes : ∀ (nbuf : Option Bytes) (store : RocksDBMap),
    (∀ b, nbuf = some b → b.length = LongByteArrayMap.arrayLength V.config snap.version) →
    V.Counted store (-1) (LongByteArrayMap.allExtents V.config snap) →
    ∃ store', LongByteArrayMap.vanish V snap nbuf store = .finished (.ok (), store') ∧
      V.Adds store store' (-1) (LongByteArrayMap.allExtents V.config snap)
  undone : ∃ store', LongByteArrayMap.vanish V snap none after.store = .finished (.ok (), store') ∧
    ∀ hash pos, store'.chunkReferences hash pos = (volume.sync V.config safeSync).store.chunkReferences hash pos
  unchanged : after.file = (volume.sync V.config safeSync).file

/-! ### One call of `claimKey` -/

namespace RocksDBMap

variable {m : RocksDBMap} {hash k : Bytes} {val ct pos : Int}

theorem located_claimKey (m : RocksDBMap) (hash : Bytes) (val ct : Int) (k : Bytes) :
    (m.claimKey hash val ct).2.located k =
      if k = hash then (m.located k).map fun r => if r.pos = val then { r with ct := long (ct + r.ct) } else r
      else m.located k := by
  by_cases same : k = hash
  · subst same
    rw [if_pos rfl]
    unfold claimKey located
    cases temp : m.tempHt.get k with
    | some bk =>
      dsimp only
      by_cases there : bk.pos = val
      · rw [if_neg (not_not.mpr there)]
        dsimp only
        rw [OrderedMap.get_put, if_pos rfl, Option.map_some, if_pos there]
      · rw [if_pos there, temp, Option.map_some, if_neg there]
    | none =>
      dsimp only
      cases db : m.dbs.get k with
      | none => simp only [temp, db, Option.map_none]
      | some v =>
        dsimp only
        by_cases there : v.pos = val
        · rw [if_neg (not_not.mpr there)]
          dsimp only
          rw [temp, OrderedMap.get_put, if_pos rfl, Option.map_some, if_pos there]
        · rw [if_pos there, temp, Option.map_some, if_neg there]
          exact db
  · rw [if_neg same]
    have counted := claimKey_counted m hash val ct
    generalize (m.claimKey hash val ct).2 = m' at counted ⊢
    cases counted with
    | none => rfl
    | temp r rmdb fresh =>
      unfold located
      rw [OrderedMap.get_put_other _ _ same]
    | db r rmdb alone =>
      unfold located
      rw [OrderedMap.get_put_other _ _ same]

end RocksDBMap

/-! ### All extents -/

theorem long_iterate (c : Int) (n : Nat) (x : Int) : long ((fun x => long (c + x))^[n] x) = long (x + c * n) := by
  induction n generalizing x with
  | zero => rw [Function.iterate_zero, id, Nat.cast_zero, mul_zero, add_zero]
  | succ n ih =>
    rw [Function.iterate_succ_apply, ih]
    unfold long
    rw [Int.bmod_add_bmod]
    congr 1
    push_cast
    ring

theorem iterate_long (c : Int) {n : Nat} (positive : 0 < n) (x : Int) :
    (fun x => long (c + x))^[n] x = long (x + c * n) := by
  obtain ⟨n, rfl⟩ := Nat.exists_eq_succ_of_ne_zero (Nat.ne_of_gt positive)
  rw [← long_iterate, Function.iterate_succ_apply']
  exact Int.bmod_bmod.symm

namespace Services

variable {V} {store : RocksDBMap} {hs : List HashLocPair} {hash : Bytes} {pos c : Int}

theorem referring_cons (h : HashLocPair) (hs : List HashLocPair) : V.referring hash pos (h :: hs) =
    V.referring hash pos hs + if V.counts h && (h.hash = hash && h.val = pos) then 1 else 0 := by
  unfold referring
  rw [List.countP_cons]

theorem referring_pos {h : HashLocPair} (member : h ∈ hs) (counted : V.counts h = true) :
    0 < V.referring h.hash h.val hs := by
  unfold referring
  rw [List.countP_pos_iff]
  exact ⟨h, member, by simp [counted]⟩

theorem exists_referring (positive : 0 < V.referring hash pos hs) :
    ∃ h ∈ hs, V.counts h = true ∧ h.hash = hash ∧ h.val = pos := by
  unfold referring at positive
  obtain ⟨h, member, both⟩ := List.countP_pos_iff.mp positive
  refine ⟨h, member, ?_⟩
  simpa using both

theorem located_addRef (store : RocksDBMap) (h : HashLocPair) (c : Int) (k : Bytes) :
    (V.addRef store h c).2.located k = (store.located k).map fun r =>
      if V.counts h && (h.hash = k && h.val = r.pos) then { r with ct := long (c + r.ct) } else r := by
  unfold addRef
  by_cases counted : V.counts h = true
  · rw [if_pos counted, RocksDBMap.located_claimKey]
    by_cases same : h.hash = k
    · rw [if_pos same.symm]
      refine Option.map_congr fun r _ => ?_
      simp [counted, same, eq_comm]
    · rw [if_neg (Ne.symm same)]
      simp [same]
  · rw [if_neg counted]
    simp [counted]

theorem located_addRefs (store : RocksDBMap) (hs : List HashLocPair) (c : Int) (k : Bytes) :
    (hs.foldl (fun store h => (V.addRef store h c).2) store).located k =
      (store.located k).map fun r => { r with ct := (fun x => long (c + x))^[V.referring k r.pos hs] r.ct } := by
  induction hs generalizing store with
  | nil => exact Option.map_id'.symm
  | cons h hs ih =>
    rw [List.foldl_cons, ih, located_addRef, Option.map_map]
    refine Option.map_congr fun r _ => ?_
    rw [referring_cons]
    dsimp only [Function.comp]
    split
    · rw [Function.iterate_add_apply, Function.iterate_one]
    · rfl

theorem chunkReferences_addRefs (store : RocksDBMap) (hs : List HashLocPair) (c : Int) (hash : Bytes) (pos : Int) :
    (hs.foldl (fun store h => (V.addRef store h c).2) store).chunkReferences hash pos =
      match store.located hash with
      | some r => if r.pos = pos then (fun x => long (c + x))^[V.referring hash pos hs] r.ct else 0
      | none => 0 := by
  unfold RocksDBMap.chunkReferences
  rw [located_addRefs]
  cases store.located hash with
  | none => rfl
  | some r =>
    dsimp only [Option.map_some]
    by_cases there : r.pos = pos
    · rw [if_pos there, if_pos there, there]
    · rw [if_neg there, if_neg there]

theorem Counted.adds (counted : V.Counted store c hs) :
    V.Adds store (hs.foldl (fun store h => (V.addRef store h c).2) store) c hs := by
  intro hash pos
  rw [chunkReferences_addRefs, RocksDBMap.chunkReferences]
  rcases Nat.eq_zero_or_pos (V.referring hash pos hs) with none_refers | positive
  · rw [none_refers]
    simp
  · obtain ⟨h, member, counts, rfl, rfl⟩ := exists_referring positive
    obtain ⟨r, located, there, -, range⟩ := counted h member counts
    rw [located]
    dsimp only
    rw [if_pos there, if_pos there, iterate_long c positive, range]

theorem Adds.counted (adds : V.Adds store (hs.foldl (fun store h => (V.addRef store h c).2) store) c hs) (change : c ≠ 0)
    {h : HashLocPair} (member : h ∈ hs) (counts : V.counts h = true) :
    ∃ r, store.located h.hash = some r ∧ r.pos = h.val ∧
      long (r.ct + c * V.referring h.hash h.val hs) = r.ct + c * V.referring h.hash h.val hs := by
  have positive := referring_pos member counts
  have changed : c * V.referring h.hash h.val hs ≠ 0 := mul_ne_zero change (by omega)
  have added := adds h.hash h.val
  rw [chunkReferences_addRefs, RocksDBMap.chunkReferences] at added
  cases located : store.located h.hash with
  | none =>
    rw [located] at added
    dsimp only at added
    omega
  | some r =>
    rw [located] at added
    dsimp only at added
    by_cases there : r.pos = h.val
    · rw [if_pos there, if_pos there, iterate_long c positive] at added
      exact ⟨r, rfl, there, added⟩
    · rw [if_neg there, if_neg there] at added
      omega

end Services

/-! ### The passes of `index` and `vanish` -/

namespace LongByteArrayMap

variable {V} {K : Config} {m : LongByteArrayMap} {slots : Nat → Option SparseDataChunk} {store : RocksDBMap}

theorem filterMap_refs (slots : Nat → Option SparseDataChunk) (is : List Nat) :
    (is.filterMap slots).flatMap (fun ck => ck.ar.values) = refsOf slots is := by
  unfold refsOf
  induction is with
  | nil => rfl
  | cons i is ih =>
    rw [List.flatMap_cons]
    cases there : slots i with
    | none =>
      rw [List.filterMap_cons_none there, ih]
      rfl
    | some ck =>
      rw [List.filterMap_cons_some there, List.flatMap_cons, ih]
      rfl

/-- The loop comes to every extent of every record, in the order of the file. -/
theorem passExtents_spec (holds : Holds K m slots) (usable : K.Usable) {nbuf : Option Bytes}
    (wide : ∀ b, nbuf = some b → b.length = arrayLength K m.version) :
    passExtents K m nbuf = .finished (allExtents K m, .ok ()) := by
  have few : ((List.range' 0 (slotCount K m)).filterMap slots).length < m.db.length + 1 := by
    have length := List.length_filterMap_le slots (List.range' 0 (slotCount K m))
    have inside := slotCount_le (m := m) usable
    rw [List.length_range'] at length
    omega
  have whole : ∀ cks : List SparseDataChunk, cks.takeWhile (fun _ => true) = cks := fun cks =>
    List.takeWhile_eq_self_iff.mpr fun _ _ => rfl
  unfold passExtents allExtents
  rw [takeNext_passes (nextValue_passes holds usable wide) _ few, whole, extents_eq holds usable, List.range_eq_range',
    ← filterMap_refs]
  rfl

theorem index_spec (holds : Holds V.config m slots) (usable : V.config.Usable) (store : RocksDBMap) :
    index V m store = .finished (.ok (), (allExtents V.config m).foldl (fun store h => (V.addRef store h 1).2) store) := by
  have unused : ∀ b, (none : Option Bytes) = some b → b.length = arrayLength V.config m.version := fun _ => nofun
  unfold index
  rw [passExtents_spec holds usable unused]
  rfl

theorem vanish_spec (holds : Holds V.config m slots) (usable : V.config.Usable) {nbuf : Option Bytes}
    (wide : ∀ b, nbuf = some b → b.length = arrayLength V.config m.version) (store : RocksDBMap) :
    vanish V m nbuf store =
      .finished (.ok (), (allExtents V.config m).foldl (fun store h => (V.addRef store h (-1)).2) store) := by
  unfold vanish
  rw [passExtents_spec holds usable wide]
  rfl

theorem located_undone (store : RocksDBMap) (hs : List HashLocPair) (k : Bytes) :
    (hs.foldl (fun store h => (V.addRef store h (-1)).2)
        (hs.foldl (fun store h => (V.addRef store h 1).2) store)).located k =
      (store.located k).map fun r => { r with ct := if V.referring k r.pos hs = 0 then r.ct else long r.ct } := by
  rw [Services.located_addRefs, Services.located_addRefs, Option.map_map]
  refine Option.map_congr fun r _ => ?_
  dsimp only [Function.comp]
  rcases Nat.eq_zero_or_pos (V.referring k r.pos hs) with none_refers | positive
  · rw [none_refers, if_pos rfl]
    rfl
  · rw [if_neg (Nat.ne_of_gt positive), iterate_long 1 positive, iterate_long (-1) positive]
    have back : long (long (r.ct + 1 * V.referring k r.pos hs) + -1 * V.referring k r.pos hs) = long r.ct := by
      unfold long
      rw [Int.bmod_add_bmod]
      congr 1
      ring
    rw [back]

theorem chunkReferences_undone (store : RocksDBMap) (hs : List HashLocPair) (hash : Bytes) (pos : Int) :
    (hs.foldl (fun store h => (V.addRef store h (-1)).2)
        (hs.foldl (fun store h => (V.addRef store h 1).2) store)).chunkReferences hash pos =
      match store.located hash with
      | some r => if r.pos = pos then if V.referring hash pos hs = 0 then r.ct else long r.ct else 0
      | none => 0 := by
  unfold RocksDBMap.chunkReferences
  rw [located_undone]
  cases store.located hash with
  | none => rfl
  | some r =>
    dsimp only [Option.map_some]
    by_cases there : r.pos = pos
    · rw [if_pos there, if_pos there, there]
    · rw [if_neg there, if_neg there]

theorem adds_undone_iff (store : RocksDBMap) (hs : List HashLocPair) :
    V.Adds store (hs.foldl (fun store h => (V.addRef store h 1).2) store) 1 hs ∧
        (∀ hash pos, (hs.foldl (fun store h => (V.addRef store h (-1)).2)
          (hs.foldl (fun store h => (V.addRef store h 1).2) store)).chunkReferences hash pos =
            store.chunkReferences hash pos) ↔
      V.Counted store 1 hs := by
  constructor
  · rintro ⟨adds, undone⟩ h member counts
    obtain ⟨r, located, there, range⟩ := adds.counted one_ne_zero member counts
    refine ⟨r, located, there, ?_, range⟩
    have back := undone h.hash h.val
    rw [chunkReferences_undone, RocksDBMap.chunkReferences, located] at back
    dsimp only at back
    rwa [if_pos there, if_pos there, if_neg (Nat.ne_of_gt (Services.referring_pos member counts))] at back
  · intro counted
    refine ⟨counted.adds, fun hash pos => ?_⟩
    rw [chunkReferences_undone, RocksDBMap.chunkReferences]
    rcases Nat.eq_zero_or_pos (V.referring hash pos hs) with none_refers | positive
    · rw [none_refers]
      rfl
    · obtain ⟨h, member, counts, rfl, rfl⟩ := Services.exists_referring positive
      obtain ⟨r, located, there, whole, -⟩ := counted h member counts
      rw [located]
      dsimp only
      rw [if_pos there, if_pos there, if_neg (Nat.ne_of_gt positive), whole]

end LongByteArrayMap

/-! ### Snapshots -/

namespace Volume

variable {V} {K : Config} {version : UInt8} {volume : Volume}

theorem made_sync (made : LongByteArrayMap.Made K version volume.file.map)
    (plain : ∀ r ∈ volume.file.unflushed, (LongByteArrayMap.Op.put r.1 r.2).Plain K version) (safeSync : Bool) :
    LongByteArrayMap.Made K version (volume.sync K safeSync).file.map := by
  unfold sync
  split
  · exact LongByteArrayMap.made_writeCache made plain
  · exact made

theorem snapshot_spec (usable : V.config.Usable) {safeSync : Bool}
    (made : LongByteArrayMap.Made V.config version (volume.sync V.config safeSync).file.map) :
    volume.snapshot V safeSync = .finished (.ok (volume.sync V.config safeSync).file.map,
      { volume.sync V.config safeSync with
        store := (LongByteArrayMap.allExtents V.config (volume.sync V.config safeSync).file.map).foldl
          (fun store h => (V.addRef store h 1).2) (volume.sync V.config safeSync).store }) := by
  obtain ⟨-, slots, holds⟩ := LongByteArrayMap.made_holds usable made
  unfold snapshot LongByteArrayMap.copy
  dsimp only
  rw [LongByteArrayMap.openFile_made usable made, LongByteArrayMap.index_spec holds usable]
  rfl

theorem denotes_iff (chunks : σ) (direct safeSync : Bool) :
    (∀ p, LongByteArrayMap.fileByte V chunks direct (volume.sync V.config safeSync).file.map p =
        LongByteArrayMap.fileByte V chunks direct (volume.writeCache V.config).file.map p) ↔
      safeSync = true ∨ ∀ p, LongByteArrayMap.fileByte V chunks direct volume.file.map p =
        LongByteArrayMap.fileByte V chunks direct (volume.writeCache V.config).file.map p := by
  cases safeSync with
  | true => exact iff_of_true (fun _ => rfl) (.inl rfl)
  | false => exact ⟨.inr, fun same => same.resolve_left nofun⟩

def sevens : Services Unit := { LongByteArrayMap.hashing with fetchChunk := fun _ _ _ _ => some (List.replicate 100 7) }

def unflushedVolume : Volume where
  file := ⟨LongByteArrayMap.create 2, [(0, SparseDataChunk.oneEntry false)], false, true, 100⟩
  store := { RocksDBMap.fresh with dbs := OrderedMap.empty.put (List.replicate 16 1) ⟨144680345676153346, 1⟩ }
  flushing := []

theorem unflushedVolume_plain (r : Nat × SparseDataChunk) (member : r ∈ unflushedVolume.file.unflushed) :
    (LongByteArrayMap.Op.put r.1 r.2).Plain sevens.config 2 := by
  rw [List.mem_singleton.mp member]
  exact ⟨rfl, SparseDataChunk.oneEntry_typed false⟩

end Volume

end EncryptedDedup.SDFS
