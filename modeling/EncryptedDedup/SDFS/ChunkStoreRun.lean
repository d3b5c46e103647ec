import EncryptedDedup.SDFS.ChunkStoreSteps

/-!
# Runs of the chunk store

Whatever threads, the collector and compactions do, and in whatever order, a key in the map is read as it was put.
-/

namespace EncryptedDedup.SDFS.ChunkStore

open HashBlobArchive (Archive Writers Stored Site Reserved Sealed localArchive localFile localSite firstRecord firstNeeded)
open SimpleByteArrayLongMap (Layout IsKey)

variable {S : Setting} {s s' : ChunkStore} {keys : Int → List Bytes} {k : Bytes} {id : Int} {site : Site}

/-! ### Runs -/

/-- What the steps are given: the chunks of the keys, places for new archives, and where a compaction works a cipher that
fits. No call of `moveFile` fails between the two files of an archive. -/
def Meets (S : Setting) (s : ChunkStore) : Step → Prop
  | .put cm chunk _ => S.IsHash cm.hash ∧ chunk = S.content cm.hash
  | .lockedPut _ _ new => new.Lawful S s
  | .compactEnd c =>
    ¬ c.Splits ∧ ∀ run st, s.compacting = some run → s.archives run.id = some (.stored st) → c.Lawful st.setup
  | _ => True

/-- Steps one after another, of each of which `Q` holds. -/
inductive Runs (Q : ChunkStore → Step → Prop) (site : Site) (s : ChunkStore) : ChunkStore → Prop where
  | start : Runs Q site s s
  | step {s' : ChunkStore} {e : Step} : Runs Q site s s' → Q s' e → Runs Q site s (s'.step site e)

theorem Runs.mono {Q' Q : ChunkStore → Step → Prop} (run : Runs Q site s s') (weaker : ∀ s e, Q s e → Q' s e) :
    Runs Q' site s s' := by
  induction run with
  | start => exact .start
  | step _ good ih => exact .step ih (weaker _ _ good)

def new (now : Int) : ChunkStore :=
  ⟨⟨false, .empty, .empty, .empty, none, now, []⟩, fun _ => none, fun _ => none, fun _ => none, none⟩

theorem new_sound (S : Setting) (now : Int) : Sound S (new now) fun _ => [] where
  apart _ _ := rfl
  opened := rfl
  files _ _ here := nomatch here
  vacant _ _ := rfl
  never := rfl
  locked _ _ own := nomatch own
  reserved _ _ _ _ own := nomatch own
  waiting _ _ waits := by
    obtain ⟨files, here, -⟩ := waits
    cases here
  refers _ _ refers := by
    rcases refers with there | ⟨p, own, -⟩
    · cases there
    · cases own
  compacting _ run := nomatch run

theorem step_goes {e : Step} (sound : Sound S s keys) (meets : Meets S s e) : Goes S s keys (s.step site e) := by
  cases e with
  | put cm chunk uuid => exact put_goes sound meets.1 meets.2 uuid
  | getArchive hash => exact getArchive_goes sound hash
  | tryArchive hash found => exact tryArchive_goes sound hash found
  | lockedPut hash found new => exact lockedPut_goes sound meets hash found
  | write hash => exact write_goes sound hash
  | finish hash => exact finish_goes sound hash
  | claimKey hash val ct => exact onKey_goes sound hash fun cm stored => RocksDBMap.Step.noConfusion
  | hashBlobArchiveSync b => exact onKey_goes sound b fun cm stored => RocksDBMap.Step.noConfusion
  | startClaimRecords => exact onHashes_goes sound fun cm stored => RocksDBMap.Step.noConfusion
  | claimNext => exact claimNext_goes sound
  | tick millis => exact onHashes_goes (e := .tick millis) sound fun cm stored => RocksDBMap.Step.noConfusion
  | upload id => exact upload_goes sound id
  | moveFile id => exact moveFile_goes sound id
  | compactArchive id disableWrite mapped => exact compactArchive_goes sound id disableWrite mapped
  | compactNext => exact compactNext_goes sound
  | compactEnd c => exact compactEnd_goes sound meets.1 meets.2

def Seen (S : Setting) (s : ChunkStore) (keys : Int → List Bytes) (k : Bytes) (id : Int) : Prop :=
  S.IsHash k ∧ (k ∈ keys id ∨ s.Final id)

theorem Seen.follows {keys' : Int → List Bytes} (seen : Seen S s keys k id) (follows : Follows s keys s' keys') :
    Seen S s' keys' k id := by
  refine ⟨seen.1, ?_⟩
  rcases follows id with final | ⟨open_before, more⟩
  · exact .inr final
  · rcases seen.2 with member | final
    · exact .inl (more member)
    · exact absurd final open_before

theorem runs_sound {Q : ChunkStore → Step → Prop} (meets : ∀ s e, Q s e → Meets S s e) (sound : Sound S s keys)
    (run : Runs Q site s s') : ∃ keys', Sound S s' keys' ∧ ∀ k id, Seen S s keys k id → Seen S s' keys' k id := by
  induction run with
  | start => exact ⟨keys, sound, fun _ _ => id⟩
  | @step s' e _ good ih =>
    obtain ⟨keys', sound', kept⟩ := ih
    obtain ⟨keys'', sound'', follows⟩ := step_goes sound' (meets s' e good)
    exact ⟨keys'', sound'', fun k id seen => (kept k id seen).follows follows⟩

/-! ### Reading -/

theorem Sound.getBlock (sound : Sound S s keys) (site : Site) (member : k ∈ keys id) :
    s.getBlock site k id = some (S.content k) := by
  unfold ChunkStore.getBlock
  cases here : s.archives id with
  | none =>
    rw [sound.vacant id here] at member
    cases member
  | some files => exact (sound.files id files here).read site member

theorem Sound.getBlock_seen (sound : Sound S s keys) (site : Site) (seen : Seen S s keys k id) :
    s.getBlock site k id = none ∨ s.getBlock site k id = some (S.content k) := by
  rcases seen.2 with member | ⟨files, here, final⟩
  · exact .inr (sound.getBlock site member)
  · unfold ChunkStore.getBlock
    rw [here, Option.bind_some]
    have holds := sound.files id files here
    cases files with
    | writing a uuid w => exact absurd rfl (final a uuid w)
    | stored st =>
      obtain ⟨T, rs, sealed, -, hashLength, contents, -⟩ := holds.of_stored
      have plain : IsKey T k := ⟨seen.1.1.trans hashLength.symm, by rw [hashLength]; exact seen.1.2⟩
      show st.read site k = none ∨ st.read site k = some (S.content k)
      rw [sealed.read site plain]
      cases found : HashBlobArchive.chunkOf rs k with
      | none => exact .inl rfl
      | some chunk =>
        rw [chunkOf_content sealed.single contents found]
        exact .inr rfl
    | deleted => exact .inl rfl

theorem Sound.located (sound : Sound S s keys) (there : s.hashes.get k ≠ -1) :
    k ∈ keys (s.hashes.get k) ∧ S.IsHash k := by
  rw [RocksDBMap.get_eq_location] at there ⊢
  cases location : s.hashes.location k with
  | none =>
    rw [location] at there
    exact absurd rfl there
  | some pos =>
    have member := sound.refers k pos (.inl location)
    refine ⟨member, ?_⟩
    cases here : s.archives pos with
    | none =>
      rw [sound.vacant pos here] at member
      cases member
    | some files => exact (sound.files pos files here).isHash member

theorem Sound.getData (sound : Sound S s keys) (site : Site) (there : s.hashes.get k ≠ -1) :
    s.getData site k = some (S.content k) := by
  unfold ChunkStore.getData
  rw [if_neg (by rw [sound.opened]; exact Bool.false_ne_true)]
  dsimp only
  rw [if_pos there]
  exact sound.getBlock site (sound.located there).1

theorem getData_absent (site : Site) (gone : s.hashes.get k = -1) : s.getData site k = none := by
  unfold ChunkStore.getData
  split
  · rfl
  · rw [gone]
    rfl

def effect (s : ChunkStore) : Step → Option RocksDBMap.Step
  | .put cm _ _ =>
    match s.putting cm.hash with
    | some _ => none
    | none => some (.put cm none)
  | .finish hash =>
    match s.putting hash with
    | some p =>
      match p.phase with
      | .persisted cPos => some (.put ⟨hash, p.references⟩ (some cPos))
      | _ => none
    | none => none
  | .claimKey hash val ct =>
    match s.putting hash with
    | some _ => none
    | none => some (.claimKey hash val ct)
  | .hashBlobArchiveSync b =>
    match s.putting b with
    | some _ => none
    | none => some (.hashBlobArchiveSync b)
  | .startClaimRecords => some .startClaimRecords
  | .claimNext =>
    match s.hashes.iter with
    | some ((hash, _) :: _) =>
      match s.putting hash with
      | some _ => none
      | none => some .claimNext
    | _ => some .claimNext
  | .tick millis => some (.tick millis)
  | _ => none

variable {Q : RocksDBMap → RocksDBMap.Step → Prop}

theorem onHashes_steps {e : RocksDBMap.Step} (allowed : Q s.hashes e) :
    RocksDBMap.Steps Q s.hashes (s.onHashes e).hashes := by
  unfold onHashes
  cases done : s.hashes.step e with
  | ok m' => exact .next .none allowed done
  | error failure => exact .none

theorem put_steps {cm : ChunkData} {chunk : Bytes} {uuid : String}
    (allowed : ∀ e, s.effect (.put cm chunk uuid) = some e → Q s.hashes e) :
    RocksDBMap.Steps Q s.hashes (s.put cm chunk uuid).hashes := by
  unfold effect at allowed
  dsimp only at allowed
  unfold ChunkStore.put
  cases own : s.putting cm.hash with
  | some p => exact .none
  | none =>
    rw [own] at allowed
    dsimp only
    cases done : s.hashes.put cm none with
    | ok r =>
      refine .next .none (allowed _ rfl) ?_
      show (s.hashes.put cm none).map Prod.snd = _
      rw [done]
      rfl
    | error e => cases e <;> exact .none

theorem finish_steps {hash : Bytes} (allowed : ∀ e, s.effect (.finish hash) = some e → Q s.hashes e) :
    RocksDBMap.Steps Q s.hashes (s.finish hash).hashes := by
  unfold effect at allowed
  dsimp only at allowed
  unfold finish
  cases own : s.putting hash with
  | none => exact .none
  | some p =>
    rw [own] at allowed
    dsimp only at allowed ⊢
    cases phase : p.phase with
    | persisted cPos =>
      rw [phase] at allowed
      dsimp only
      cases done : s.hashes.put ⟨hash, p.references⟩ (some cPos) with
      | ok r =>
        refine .next .none (allowed _ rfl) ?_
        show (s.hashes.put ⟨hash, p.references⟩ (some cPos)).map Prod.snd = _
        rw [done]
        rfl
      | error e => exact .none
    | start => exact .none
    | found ar => exact .none
    | refused => exact .none
    | reserved id r => exact .none

def Same (s s' : ChunkStore) : Prop := s'.hashes = s.hashes ∧ s'.compacting = s.compacting

theorem putChunk_frame (s : ChunkStore) (hash : Bytes) (p : Putting) (id : Int) (a : Archive) (uuid : String) (w : Writers)
    (found : HashBlobArchive.Found) (caught : HashBlobArchive.PutError → Option Phase) :
    Same s (s.putChunk hash p id a uuid w found caught) := by
  unfold putChunk
  dsimp only
  split
  · exact ⟨rfl, rfl⟩
  · split <;> exact ⟨rfl, rfl⟩

theorem newArchive_frame (s : ChunkStore) (hash : Bytes) (p : Putting) (new : NewArchive) (found : HashBlobArchive.Found) :
    Same s (s.newArchive hash p new found) := by
  unfold newArchive
  dsimp only
  split <;> exact ⟨rfl, rfl⟩

theorem getArchive_frame (s : ChunkStore) (hash : Bytes) : Same s (s.getArchive hash) := by
  unfold getArchive
  split
  · split <;> exact ⟨rfl, rfl⟩
  · exact ⟨rfl, rfl⟩

theorem tryArchive_frame (s : ChunkStore) (hash : Bytes) (found : HashBlobArchive.Found) :
    Same s (s.tryArchive hash found) := by
  unfold tryArchive
  split
  · split
    · exact ⟨rfl, rfl⟩
    · split
      · exact putChunk_frame ..
      · exact ⟨rfl, rfl⟩
    · exact ⟨rfl, rfl⟩
  · exact ⟨rfl, rfl⟩

theorem lockedPut_frame (s : ChunkStore) (hash : Bytes) (found : HashBlobArchive.Found) (new : NewArchive) :
    Same s (s.lockedPut hash found new) := by
  unfold lockedPut
  split
  · split
    · split
      · exact newArchive_frame ..
      · split
        · split
          · exact putChunk_frame ..
          · exact newArchive_frame ..
        · exact newArchive_frame ..
    · exact ⟨rfl, rfl⟩
  · exact ⟨rfl, rfl⟩

theorem write_frame (s : ChunkStore) (hash : Bytes) : Same s (s.write hash) := by
  unfold ChunkStore.write
  split
  · split
    · split <;> exact ⟨rfl, rfl⟩
    · exact ⟨rfl, rfl⟩
  · exact ⟨rfl, rfl⟩

theorem upload_frame (s : ChunkStore) (id : Int) : Same s (s.upload id) := by
  unfold upload
  split <;> exact ⟨rfl, rfl⟩

theorem moveFile_frame (s : ChunkStore) (id : Int) : Same s (s.moveFile id) := by
  unfold moveFile
  split
  · split <;> exact ⟨rfl, rfl⟩
  · exact ⟨rfl, rfl⟩

theorem compactArchive_hashes (s : ChunkStore) (site : Site) (id : Int) (disableWrite mapped : Bool) :
    (s.compactArchive site id disableWrite mapped).hashes = s.hashes := by
  unfold compactArchive
  split
  · split
    · rfl
    · split <;> rfl
  · rfl

theorem compactNext_hashes (s : ChunkStore) : s.compactNext.hashes = s.hashes := by
  unfold compactNext
  split
  · split <;> rfl
  · rfl

theorem compactEnd_hashes (s : ChunkStore) (site : Site) (c : HashBlobArchive.Outside) :
    (s.compactEnd site c).hashes = s.hashes := by
  unfold compactEnd
  split
  · split
    · split <;> rfl
    · rfl
  · rfl

theorem step_steps {e : Step} (allowed : ∀ e', s.effect e = some e' → Q s.hashes e') :
    RocksDBMap.Steps Q s.hashes (s.step site e).hashes := by
  have quiet : ∀ {m' : RocksDBMap}, m' = s.hashes → RocksDBMap.Steps Q s.hashes m' := by
    rintro m' rfl
    exact .none
  cases e with
  | put cm chunk uuid => exact put_steps allowed
  | finish hash => exact finish_steps allowed
  | claimKey hash val ct =>
    unfold effect at allowed
    dsimp only at allowed
    show RocksDBMap.Steps Q s.hashes (s.onKey hash (.claimKey hash val ct)).hashes
    unfold onKey
    cases own : s.putting hash with
    | some p => exact .none
    | none =>
      rw [own] at allowed
      exact onHashes_steps (allowed _ rfl)
  | hashBlobArchiveSync b =>
    unfold effect at allowed
    dsimp only at allowed
    show RocksDBMap.Steps Q s.hashes (s.onKey b (.hashBlobArchiveSync b)).hashes
    unfold onKey
    cases own : s.putting b with
    | some p => exact .none
    | none =>
      rw [own] at allowed
      exact onHashes_steps (allowed _ rfl)
  | startClaimRecords => exact onHashes_steps (allowed _ rfl)
  | claimNext =>
    unfold effect at allowed
    dsimp only at allowed
    show RocksDBMap.Steps Q s.hashes s.claimNext.hashes
    unfold claimNext
    split
    · rename_i hash bk rest shown
      rw [shown] at allowed
      unfold onKey
      cases own : s.putting hash with
      | some p => exact .none
      | none =>
        dsimp only at allowed
        rw [own] at allowed
        exact onHashes_steps (allowed _ rfl)
    · rename_i other
      refine onHashes_steps (allowed _ ?_)
      split
      · rename_i hash bk rest shown
        exact absurd shown (other hash bk rest)
      · rfl
  | tick millis => exact onHashes_steps (allowed _ rfl)
  | getArchive hash => exact quiet (getArchive_frame s hash).1
  | tryArchive hash found => exact quiet (tryArchive_frame s hash found).1
  | lockedPut hash found new => exact quiet (lockedPut_frame s hash found new).1
  | write hash => exact quiet (write_frame s hash).1
  | upload id => exact quiet (upload_frame s id).1
  | moveFile id => exact quiet (moveFile_frame s id).1
  | compactArchive id disableWrite mapped => exact quiet (compactArchive_hashes s site id disableWrite mapped)
  | compactNext => exact quiet (compactNext_hashes s)
  | compactEnd c => exact quiet (compactEnd_hashes s site c)

/-- No reference to the key is released, and the collector does not come upon an overdue key with references that only the
temporary table has. -/
def Holding (k : Bytes) (s : ChunkStore) (e : Step) : Prop :=
  ∀ e', s.effect e = some e' → e'.Clear s.hashes ∧ e'.Grows k s.hashes

def localSetting : Setting where
  n := 32
  m := 7
  content hash := if hash = firstRecord.hash then [3, 4, 5] else [6, 7]
  nonempty hash := by split <;> exact List.cons_ne_nil _ _
  small hash := by split <;> decide

theorem localArchive_suits : localSetting.Suits localArchive := by
  refine ⟨rfl, ⟨by decide, by decide⟩, fun hash => ?_⟩
  show (localArchive.encode (if hash = firstRecord.hash then [3, 4, 5] else [6, 7])).length ≤ 7
  split <;> decide

def localNew : NewArchive := ⟨7, localArchive, 5⟩

def firstPut : ChunkStore :=
  (((((new 0).step localSite (.put ⟨firstRecord.hash, 1⟩ [3, 4, 5] "file")).step localSite
    (.getArchive firstRecord.hash)).step localSite (.tryArchive firstRecord.hash HashBlobArchive.alone)).step localSite
    (.lockedPut firstRecord.hash HashBlobArchive.alone localNew)).step localSite (.finish firstRecord.hash)

theorem firstPut_runs : Runs (Meets localSetting) localSite (new 0) firstPut := by
  have lawful : ∀ {s : ChunkStore}, s.archives = (fun _ => none) → localNew.Lawful localSetting s := by
    intro s fresh
    refine ⟨by decide, ?_, localArchive_suits, localFile, HashBlobArchive.localArchive_uses, rfl⟩
    rw [fresh]
  refine .step (.step (.step (.step (.step .start ?_) trivial) trivial) (lawful rfl)) trivial
  exact ⟨by unfold Setting.IsHash; decide, rfl⟩

def firstAsked : ChunkStore :=
  ((((firstPut.step localSite (.upload 7)).step localSite (.moveFile 7)).step localSite
    (.hashBlobArchiveSync firstRecord.hash)).step localSite (.compactArchive 7 false false)).step localSite .compactNext

set_option maxRecDepth 4000 in
theorem firstAsked_stored : ∃ f map, firstAsked.archives 7 = some (.stored ⟨localArchive, f, map⟩) :=
  ⟨_, _, by rfl⟩

def firstCompacted : ChunkStore := firstAsked.step localSite (.compactEnd firstNeeded)

theorem firstAsked_rewrites : Meets localSetting firstAsked (.compactEnd firstNeeded) := by
  refine ⟨HashBlobArchive.firstNeeded_whole, fun run st asked there => ?_⟩
  obtain ⟨f, map, stored⟩ := firstAsked_stored
  have seven : firstAsked.compacting.map Compaction.id = some 7 := by decide +kernel
  rw [asked] at seven
  rw [Option.some.inj seven, stored] at there
  obtain rfl := Files.stored.inj (Option.some.inj there)
  exact HashBlobArchive.firstNeeded_lawful

theorem firstCompacted_holding : Runs (fun s e => Meets localSetting s e ∧ Holding firstRecord.hash s e) localSite firstPut
    firstCompacted := by
  have free : ∀ {s : ChunkStore} {e : Step}, s.effect e = none → Holding firstRecord.hash s e := by
    intro s e quiet e' some_effect
    rw [quiet] at some_effect
    cases some_effect
  refine .step (.step (.step (.step (.step (.step .start ?_) ?_) ⟨trivial, fun e' step => ?_⟩) ?_) ?_)
    ⟨firstAsked_rewrites, free rfl⟩
  · exact ⟨trivial, free rfl⟩
  · exact ⟨trivial, free rfl⟩
  · unfold effect at step
    dsimp only at step
    split at step
    · cases step
    · obtain rfl := Option.some.inj step
      exact ⟨trivial, trivial⟩
  · exact ⟨trivial, free rfl⟩
  · exact ⟨trivial, free rfl⟩

end EncryptedDedup.SDFS.ChunkStore
