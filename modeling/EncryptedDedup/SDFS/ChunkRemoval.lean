import EncryptedDedup.SDFS.ChunkStoreRun

/-!
# Removed chunks

A compaction that ends without a fault leaves out what the map did not have while it asked.
-/

namespace EncryptedDedup.SDFS

namespace HashBlobArchive
open SimpleByteArrayLongMap (Layout)

variable {st : Stored} {rs : List Reserved} {T : Layout} {c : Outside} {r : Reserved}

theorem compactRest_works (site : Site) (sealed : Sealed T st rs) (small : Small st rs) (lawful : c.Lawful st.setup)
    (whole : ¬ c.Splits) {ar : List (Bytes × Int)} (listed : ∀ e ∈ ar, e.1 ∈ rs.map Reserved.hash)
    (few : ar.length ≤ rs.length + 1) {n : Int} (works : (compactRest site st c ar).2 = .ok n) :
    ((compactRest site st c ar).1 = none ∧ ar = []) ∨
    ∃ st' T' done, (compactRest site st c ar).1 = some st' ∧ Compacted T rs (ar.map Prod.fst) st' T' done := by
  rcases compactRest_cases site sealed small lawful whole listed few with ⟨-, fails⟩ | rewritten
  · exact absurd works (fails n)
  · exact rewritten

end HashBlobArchive

namespace ChunkStore

open HashBlobArchive (Stored Site Outside Reserved localArchive localSite localStored firstRecord secondRecord firstNeeded)
open SimpleByteArrayLongMap (IsKey)

variable {S : Setting} {s s' : ChunkStore} {k : Bytes} {site : Site}

/-! ### What a compaction has asked -/

theorem put_compacting (s : ChunkStore) (cm : ChunkData) (chunk : Bytes) (uuid : String) :
    (s.put cm chunk uuid).compacting = s.compacting := by
  unfold ChunkStore.put
  split
  · rfl
  · split <;> rfl

theorem finish_compacting (s : ChunkStore) (hash : Bytes) : (s.finish hash).compacting = s.compacting := by
  unfold finish
  split
  · split
    · split <;> rfl
    · rfl
  · rfl

theorem onHashes_compacting (s : ChunkStore) (e : RocksDBMap.Step) : (s.onHashes e).compacting = s.compacting := by
  unfold onHashes
  split <;> rfl

theorem onKey_compacting (s : ChunkStore) (hash : Bytes) (e : RocksDBMap.Step) :
    (s.onKey hash e).compacting = s.compacting := by
  unfold onKey
  split
  · rfl
  · exact onHashes_compacting s e

theorem claimNext_compacting (s : ChunkStore) : s.claimNext.compacting = s.compacting := by
  unfold claimNext
  split
  · exact onKey_compacting ..
  · exact onHashes_compacting ..

/-- The compaction has kept no entry of the key. -/
def Without (k : Bytes) (s : ChunkStore) : Prop := ∀ c, s.compacting = some c → k ∉ c.ar.map Prod.fst

theorem Without.of (without : Without k s) (same : s'.compacting = s.compacting) : Without k s' := by
  intro c run
  rw [same] at run
  exact without c run

theorem compactArchive_without (without : Without k s) (id : Int) (disableWrite mapped : Bool) :
    Without k (s.compactArchive site id disableWrite mapped) := by
  unfold compactArchive
  split
  · split
    · exact without
    · split
      · intro c run
        obtain rfl := Option.some.inj run
        exact List.not_mem_nil
      · exact without
  · exact without

theorem compactNext_without (without : Without k s) (absent : s.hashes.location k = none) : Without k s.compactNext := by
  unfold compactNext
  split
  · rename_i id p rest ar run
    split
    · exact without
    · have before := without _ run
      intro c later
      obtain rfl := Option.some.inj later
      dsimp only at before ⊢
      split
      · rename_i kept
        rw [List.map_append, List.mem_append]
        rintro (asked | last)
        · exact before asked
        · obtain ⟨pos, there, -⟩ := RocksDBMap.mightContainKey_eq_location.mp kept
          rw [List.map_singleton, List.mem_singleton] at last
          rw [← last, absent] at there
          cases there
      · exact before
  · exact without

theorem compactEnd_without (without : Without k s) (c : Outside) : Without k (s.compactEnd site c) := by
  unfold compactEnd
  split
  · split
    · split
      · intro c' run
        cases run
      · intro c' run
        cases run
    · exact without
  · exact without

theorem step_without {e : Step} (without : Without k s) (absent : s.hashes.location k = none) :
    Without k (s.step site e) := by
  cases e with
  | put cm chunk uuid => exact without.of (put_compacting s cm chunk uuid)
  | getArchive hash => exact without.of (getArchive_frame s hash).2
  | tryArchive hash found => exact without.of (tryArchive_frame s hash found).2
  | lockedPut hash found new => exact without.of (lockedPut_frame s hash found new).2
  | write hash => exact without.of (write_frame s hash).2
  | finish hash => exact without.of (finish_compacting s hash)
  | claimKey hash val ct => exact without.of (onKey_compacting s hash (.claimKey hash val ct))
  | hashBlobArchiveSync b => exact without.of (onKey_compacting s b (.hashBlobArchiveSync b))
  | startClaimRecords => exact without.of (onHashes_compacting s .startClaimRecords)
  | claimNext => exact without.of (claimNext_compacting s)
  | tick millis => exact without.of (onHashes_compacting s (.tick millis))
  | upload id => exact without.of (upload_frame s id).2
  | moveFile id => exact without.of (moveFile_frame s id).2
  | compactArchive id disableWrite mapped => exact compactArchive_without without id disableWrite mapped
  | compactNext => exact compactNext_without without absent
  | compactEnd c => exact compactEnd_without without c

/-- No archive has the id `-1`, so that `get` tells whether the map has a key. -/
theorem Sound.location_of_get {keys : Int → List Bytes} (sound : Sound S s keys) (gone : s.hashes.get k = -1) :
    s.hashes.location k = none := by
  rw [RocksDBMap.get_eq_location] at gone
  cases location : s.hashes.location k with
  | none => rfl
  | some pos =>
    rw [location] at gone
    obtain rfl : pos = -1 := gone
    have member := sound.refers k (-1) (.inl location)
    rw [sound.vacant (-1) sound.never] at member
    cases member

def secondPut : ChunkStore :=
  ((((firstPut.step localSite (.put ⟨secondRecord.hash, 1⟩ [6, 7] "file")).step localSite
    (.getArchive secondRecord.hash)).step localSite (.tryArchive secondRecord.hash HashBlobArchive.alone)).step localSite
    (.write secondRecord.hash)).step localSite (.finish secondRecord.hash)

def bothSynced : ChunkStore :=
  (((secondPut.step localSite (.upload 7)).step localSite (.moveFile 7)).step localSite
    (.hashBlobArchiveSync firstRecord.hash)).step localSite (.hashBlobArchiveSync secondRecord.hash)

def firstRemoved : ChunkStore :=
  (((bothSynced.step localSite (.claimKey firstRecord.hash 7 (-1))).step localSite (.tick 900001)).step localSite
    .startClaimRecords).step localSite .claimNext

theorem firstRemoved_runs : Runs (Meets localSetting) localSite (new 0) firstRemoved := by
  have second : Runs (Meets localSetting) localSite (new 0) secondPut := by
    refine .step (.step (.step (.step (.step firstPut_runs ?_) trivial) trivial) trivial) trivial
    refine ⟨by unfold Setting.IsHash; decide, ?_⟩
    show [6, 7] = if secondRecord.hash = firstRecord.hash then [3, 4, 5] else [6, 7]
    exact (if_neg (by decide)).symm
  have synced : Runs (Meets localSetting) localSite (new 0) bothSynced :=
    .step (.step (.step (.step second trivial) trivial) trivial) trivial
  exact .step (.step (.step (.step synced trivial) trivial) trivial) trivial

def bothAsked : ChunkStore :=
  ((firstRemoved.step localSite (.compactArchive 7 false false)).step localSite .compactNext).step localSite .compactNext

theorem bothAsked_runs : Runs (fun s e => Meets localSetting s e ∧ s.hashes.get firstRecord.hash = -1) localSite firstRemoved
    bothAsked := by
  refine .step (.step (.step .start ⟨trivial, ?_⟩) ⟨trivial, ?_⟩) ⟨trivial, ?_⟩
  · decide +kernel
  · decide +kernel
  · decide +kernel

def askedEntries : List (Bytes × Int) := (bothAsked.compacting.map Compaction.ar).getD []

def askedFiles : Stored :=
  match bothAsked.archives 7 with
  | some (.stored st) => st
  | _ => localStored

set_option maxRecDepth 4000 in
theorem bothAsked_state : firstRemoved.compacting = none ∧ bothAsked.compacting = some ⟨7, [], askedEntries⟩ ∧
    bothAsked.archives 7 = some (.stored askedFiles) ∧ askedFiles.setup = localArchive :=
  ⟨by rfl, by rfl, by rfl, by rfl⟩

end ChunkStore

end EncryptedDedup.SDFS
