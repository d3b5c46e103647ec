import EncryptedDedup.SDFS.ChunkStoreSound

/-!
# Steps of the chunk store

Every step keeps what holds between the steps. An archive loses chunks only in a compaction, when it is final.
-/

namespace EncryptedDedup.SDFS.ChunkStore

open HashBlobArchive (Archive Writers Stored Site Found PutError Reserved Outside Sealed Small Opened Call)
open SimpleByteArrayLongMap (Layout IsKey)

variable {S : Setting} {s s' : ChunkStore} {keys : Int → List Bytes} {k : Bytes} {id : Int} {p : Putting} {site : Site}

/-! ### What a step keeps -/

/-- The archive takes no chunks any more. -/
def Final (s : ChunkStore) (id : Int) : Prop := ∃ files, s.archives id = some files ∧ ∀ a uuid w, files ≠ .writing a uuid w

/-- After a step every archive is final, or was not and has the chunks that it had. -/
def Follows (s : ChunkStore) (keys : Int → List Bytes) (s' : ChunkStore) (keys' : Int → List Bytes) : Prop :=
  ∀ id, s'.Final id ∨ ¬ s.Final id ∧ keys id ⊆ keys' id

def Goes (S : Setting) (s : ChunkStore) (keys : Int → List Bytes) (s' : ChunkStore) : Prop :=
  ∃ keys', Sound S s' keys' ∧ Follows s keys s' keys'

theorem Follows.same (archives : s'.archives = s.archives) : Follows s keys s' keys := by
  intro id
  by_cases final : s.Final id
  · refine .inl ?_
    unfold Final
    rw [archives]
    exact final
  · exact .inr ⟨final, List.Subset.refl _⟩

theorem Follows.update {files : Files} {ks : List Bytes}
    (archives : s'.archives = Function.update s.archives id (some files))
    (own : (∀ a uuid w, files ≠ .writing a uuid w) ∨ ¬ s.Final id ∧ keys id ⊆ ks) :
    Follows s keys s' (Function.update keys id ks) := by
  intro j
  unfold Final
  rw [archives]
  by_cases same : j = id
  · subst same
    rw [Function.update_self, Function.update_self]
    exact own.imp_left fun final => ⟨files, rfl, final⟩
  · rw [Function.update_of_ne same, Function.update_of_ne same]
    by_cases final : s.Final j
    · exact .inl final
    · exact .inr ⟨final, List.Subset.refl _⟩

theorem not_final_of_writing {a : Archive} {uuid : String} {w : Writers} (here : s.archives id = some (.writing a uuid w)) :
    ¬ s.Final id := by
  rintro ⟨files, there, other⟩
  rw [here] at there
  exact other a uuid w (Option.some.inj there).symm

theorem not_final_of_none (gone : s.archives id = none) : ¬ s.Final id := by
  rintro ⟨files, there, -⟩
  rw [gone] at there
  cases there

theorem stored_not_writing {st : Stored} (a : Archive) (uuid : String) (w : Writers) :
    Files.stored st ≠ .writing a uuid w := by
  intro same
  cases same

theorem deleted_not_writing (a : Archive) (uuid : String) (w : Writers) : Files.deleted ≠ .writing a uuid w := by
  intro same
  cases same

theorem Sound.goes (sound : Sound S s' keys) (archives : s'.archives = s.archives) : Goes S s keys s' :=
  ⟨keys, sound, .same archives⟩

/-! ### Puts -/

def Phase.Idle : Phase → Prop
  | .reserved _ _ => False
  | .persisted _ => False
  | _ => True

theorem Phase.Idle.not_reserved {phase : Phase} (idle : phase.Idle) (id : Int) (r : Reserved) : phase ≠ .reserved id r := by
  rintro rfl
  exact idle

theorem Phase.Idle.not_persisted {phase : Phase} (idle : phase.Idle) (id : Int) : phase ≠ .persisted id := by
  rintro rfl
  exact idle

theorem Sound.setPhase {phase : Phase} (sound : Sound S s keys) (own : s.putting k = some p)
    (free : ∀ id r, p.phase ≠ .reserved id r) (idle : phase.Idle) : Sound S (s.setPhase k p phase) keys := by
  refine sound.setPutting (fun p' id r mine => ?_) (fun p' mine => ?_) (fun p' id r mine => ?_) fun p' id mine last => ?_
  · rw [own] at mine
    rw [← Option.some.inj mine]
    exact free id r
  · rw [← Option.some.inj mine]
    exact sound.locked k p own
  · rw [← Option.some.inj mine]
    exact idle.not_reserved id r
  · rw [← Option.some.inj mine] at last
    exact absurd last (idle.not_persisted id)

theorem Sound.giveUp (sound : Sound S s keys) (own : s.putting k = some p) (free : ∀ id r, p.phase ≠ .reserved id r) :
    Sound S (s.giveUp k) keys := by
  refine sound.setPutting (fun p' id r mine => ?_) (fun p' mine => nomatch mine) (fun p' id r mine => nomatch mine)
    fun p' id mine => nomatch mine
  rw [own] at mine
  rw [← Option.some.inj mine]
  exact free id r

theorem put_goes {cm : ChunkData} {chunk : Bytes} (sound : Sound S s keys) (isHash : S.IsHash cm.hash)
    (content : chunk = S.content cm.hash) (uuid : String) : Goes S s keys (s.put cm chunk uuid) := by
  unfold ChunkStore.put
  cases own : s.putting cm.hash with
  | some p => exact sound.goes rfl
  | none =>
    dsimp only
    cases done : s.hashes.put cm none with
    | ok r =>
      obtain ⟨r, m'⟩ := r
      have counted := RocksDBMap.put_counted done
      refine Sound.goes (sound.hashes (fun k pos found => ?_) (counted.apart sound.apart) ?_) rfl
      · rwa [RocksDBMap.put_known done] at found
      · rw [counted.closed]
        exact sound.opened
    | error e =>
      cases e with
      | persist =>
        refine Sound.goes (sound.setPutting (fun p id r mine => ?_) (fun p mine => ?_) (fun p id r mine => ?_)
          fun p id mine last => ?_) rfl
        · rw [own] at mine
          cases mine
        · rw [← Option.some.inj mine]
          exact ⟨RocksDBMap.put_persist done, content, isHash⟩
        · rw [← Option.some.inj mine]
          exact Phase.noConfusion
        · rw [← Option.some.inj mine] at last
          cases last
      | closed => exact sound.goes rfl
      | committed => exact sound.goes rfl
      | collector => exact sound.goes rfl

theorem getArchive_goes (sound : Sound S s keys) (hash : Bytes) : Goes S s keys (s.getArchive hash) := by
  unfold getArchive
  split
  · rename_i p own
    split
    · rename_i phase
      refine Sound.goes (sound.setPhase own (fun id r => ?_) trivial) rfl
      rw [phase]
      exact Phase.noConfusion
    · exact sound.goes rfl
  · exact sound.goes rfl

theorem Setting.Suits.call {a : Archive} (suits : S.Suits a) (isHash : S.IsHash k) : Call a k (S.content k) := by
  refine ⟨isHash.1.trans suits.hashLength.symm, S.nonempty k, S.small k, ?_⟩
  have stored := suits.stored k
  have bound := suits.bounded.f
  omega

theorem Setting.Suits.isKey {a : Archive} {T : Layout} (suits : S.Suits a) (uses : a.Uses T) (isHash : S.IsHash k) :
    IsKey T k := by
  have hashLength : T.hashLength = S.n := uses.hashLength.trans suits.hashLength
  refine ⟨isHash.1.trans hashLength.symm, ?_⟩
  rw [hashLength]
  exact isHash.2

theorem Sound.not_waiting (sound : Sound S s keys) (own : s.putting k = some p) (idle : p.phase.Idle) {r : Reserved}
    (waits : s.Waits id r) : r.hash ≠ k := by
  rintro rfl
  obtain ⟨p', mine, phase⟩ := sound.waiting id r waits
  rw [own] at mine
  rw [← Option.some.inj mine] at phase
  exact idle.not_reserved id r phase

theorem reserved_goes {a : Archive} {T : Layout} {uuid : String} {w w' : Writers} {r : Reserved} (sound : Sound S s keys)
    (own : s.putting k = some p) (idle : p.phase.Idle) (here : s.archives id = some (.writing a uuid w)) (uses : a.Uses T)
    (opened : Opened a T w') (waiting : w'.waiting = r :: w.waiting) (returned : w'.returned = w.returned)
    (hash : r.hash = k) (chunk : r.chunk = S.content k) :
    Goes S s keys ((s.setArchive id (.writing a uuid w')).setPhase k p (.reserved id r)) := by
  obtain ⟨-, -, suits, -, contents, before⟩ := (sound.files id _ here).of_writing
  refine ⟨_, sound.turn here own (fun j r' last => absurd last (idle.not_reserved j r')) (.writing uses suits opened ?_)
    (fun r' member => ?_) (fun r' => ?_) (fun j r' last => ?_) (fun j last => nomatch last),
    .update rfl (.inr ⟨not_final_of_writing here, ?_⟩)⟩
  · rw [waiting, returned]
    intro r' member
    rcases List.mem_cons.mp member with rfl | earlier
    · rw [chunk, hash]
    · exact contents r' earlier
  · rw [returned]
    exact member
  · rw [waiting, List.mem_cons]
    constructor
    · rintro (rfl | earlier)
      · exact .inr rfl
      · exact .inl ⟨earlier, sound.not_waiting own idle ((waits_iff here).mpr earlier)⟩
    · rintro (⟨earlier, -⟩ | same)
      · exact .inr earlier
      · exact .inl (Phase.reserved.inj same).2.symm
  · obtain ⟨rfl, rfl⟩ := Phase.reserved.inj last
    exact ⟨rfl, hash⟩
  · rw [before, returned]
    exact List.Subset.refl _

theorem refused_goes {a : Archive} {T : Layout} {uuid : String} {w w' : Writers} (sound : Sound S s keys)
    (own : s.putting k = some p) (idle : p.phase.Idle) (here : s.archives id = some (.writing a uuid w)) (uses : a.Uses T)
    (opened : Opened a T w') (waiting : w'.waiting = w.waiting) (returned : w'.returned = w.returned) :
    (∀ phase : Phase, phase.Idle ∨ phase = .persisted id ∧ k ∈ w.returned.map Reserved.hash →
      Goes S s keys ((s.setArchive id (.writing a uuid w')).setPhase k p phase)) ∧
    Goes S s keys ((s.setArchive id (.writing a uuid w')).giveUp k) := by
  obtain ⟨-, -, suits, -, contents, before⟩ := (sound.files id _ here).of_writing
  have holds : Holds S (.writing a uuid w') (w'.returned.map Reserved.hash) := by
    refine .writing uses suits opened ?_
    rw [waiting, returned]
    exact contents
  have follows : ∀ {s' : ChunkStore}, s'.archives = Function.update s.archives id (some (.writing a uuid w')) →
      Follows s keys s' (Function.update keys id (w'.returned.map Reserved.hash)) := by
    intro s' same
    refine .update same (.inr ⟨not_final_of_writing here, ?_⟩)
    rw [before, returned]
    exact List.Subset.refl _
  constructor
  · intro phase next
    have unreserved : ∀ j r, phase ≠ .reserved j r := by
      rintro j r rfl
      rcases next with still | ⟨last, -⟩
      · exact still
      · cases last
    refine ⟨_, sound.turn here own (fun j r last => absurd last (idle.not_reserved j r)) holds (fun r member => ?_)
      (fun r => ?_) (fun j r last => absurd last (unreserved j r)) (fun j last => ?_), follows rfl⟩
    · rw [returned]
      exact member
    · rw [waiting]
      refine ⟨fun earlier => .inl ⟨earlier, sound.not_waiting own idle ((waits_iff here).mpr earlier)⟩, ?_⟩
      rintro (⟨earlier, -⟩ | last)
      · exact earlier
      · exact absurd last (unreserved id r)
    · rcases next with still | ⟨stored, member⟩
      · exact absurd last (still.not_persisted j)
      · rw [stored] at last
        rw [returned]
        exact ⟨(Phase.persisted.inj last).symm, member⟩
  · have files := sound.setFiles s.writableArchives s.compacting (sound.ne_never here) holds
      (fun r => ?_) (fun k' refers => ?_) (fun c run => ⟨run, sound.not_compacting run here fun stored => stored⟩)
    · exact ⟨_, files.giveUp own idle.not_reserved, follows rfl⟩
    · rw [waits_iff here]
      show r ∈ w'.waiting ↔ r ∈ w.waiting
      rw [waiting]
    · rw [returned, ← before]
      exact sound.refers k' id refers

theorem putChunk_goes {a : Archive} {uuid : String} {w : Writers} {found : Found} {caught : PutError → Option Phase}
    (sound : Sound S s keys) (own : s.putting k = some p) (idle : p.phase.Idle)
    (here : s.archives id = some (.writing a uuid w))
    (catches : ∀ e phase, caught e = some phase → phase.Idle ∨ e = .hashExists ∧ phase = .persisted id) :
    Goes S s keys (s.putChunk k p id a uuid w found caught) := by
  obtain ⟨-, chunk, isHash⟩ := sound.locked k p own
  obtain ⟨T, uses, suits, opened, -⟩ := (sound.files id _ here).of_writing
  have plain := suits.isKey uses isHash
  have opened' : Opened a T (w.reserve a k p.chunk found) := by
    refine opened.reserve ?_ plain found
    rw [chunk]
    exact suits.call isHash
  unfold putChunk
  cases result : HashBlobArchive.reserveIn a w.writer k p.chunk found with
  | mk writer answer =>
    cases answer with
    | ok r =>
      have record := HashBlobArchive.reserveIn_record result
      have after : w.reserve a k p.chunk found = ⟨writer, r :: w.waiting, w.returned⟩ := by
        rw [Writers.reserve, result]
      rw [after] at opened' ⊢
      exact reserved_goes sound own idle here uses opened' rfl rfl (congrArg Reserved.hash record)
        ((congrArg Reserved.chunk record).trans chunk)
    | error e =>
      have after : w.reserve a k p.chunk found = ⟨writer, w.waiting, w.returned⟩ := by
        rw [Writers.reserve, result]
      rw [after] at opened' ⊢
      obtain ⟨goes, gives⟩ := refused_goes sound own idle here uses opened' rfl rfl
      dsimp only
      cases next : caught e with
      | none => exact gives
      | some phase =>
        refine goes phase ((catches e phase next).imp_right ?_)
        rintro ⟨rfl, stored⟩
        refine ⟨stored, ?_⟩
        -- The archive has the key, and no other call puts it.
        obtain ⟨r, member, same⟩ := List.mem_map.mp (opened.exists uses plain result)
        rcases List.mem_append.mp member with waits | returned
        · exact absurd same (sound.not_waiting own idle ((waits_iff here).mpr waits))
        · exact List.mem_map.mpr ⟨r, returned, same⟩

theorem caught_cases (e : PutError) (phase : Phase) (next : caught id e = some phase) :
    phase.Idle ∨ e = .hashExists ∧ phase = .persisted id := by
  cases e with
  | hashExists => exact .inr ⟨rfl, (Option.some.inj next).symm⟩
  | archiveFull =>
    rw [← Option.some.inj next]
    exact .inl trivial
  | readOnlyArchive =>
    rw [← Option.some.inj next]
    exact .inl trivial
  | io => cases next

theorem tryArchive_goes (sound : Sound S s keys) (hash : Bytes) (found : Found) :
    Goes S s keys (s.tryArchive hash found) := by
  unfold tryArchive
  split
  · rename_i p own
    split
    · rename_i phase
      refine Sound.goes (sound.setPhase own (fun id r => ?_) trivial) rfl
      rw [phase]
      exact Phase.noConfusion
    · rename_i id phase
      have idle : p.phase.Idle := by
        rw [phase]
        trivial
      split
      · rename_i a uuid w here
        exact putChunk_goes sound own idle here caught_cases
      · exact Sound.goes (sound.setPhase own idle.not_reserved trivial) rfl
    · exact sound.goes rfl
  · exact sound.goes rfl

/-- What the store makes a new archive of: its id is not in use, and it suits the keys. -/
structure NewArchive.Lawful (S : Setting) (s : ChunkStore) (new : NewArchive) : Prop where
  other : new.id ≠ -1
  fresh : s.archives new.id = none
  suits : S.Suits new.setup
  uses : ∃ T, new.setup.Uses T ∧ T.size = new.size

theorem Sound.setNew {files : Files} {ks : List Bytes} (sound : Sound S s keys) (wa : String → Option Int) (other : id ≠ -1)
    (fresh : s.archives id = none) (holds : Holds S files ks) (idle : files.waiting = []) :
    Sound S { s with archives := Function.update s.archives id (some files), writableArchives := wa }
      (Function.update keys id ks) ∧
    ∀ {s' : ChunkStore}, s'.archives = Function.update s.archives id (some files) →
      Follows s keys s' (Function.update keys id ks) := by
  have none_there := sound.vacant id fresh
  constructor
  · refine sound.setFiles wa s.compacting other holds (fun r => ?_) (fun k refers => ?_) fun c run => ⟨run, ?_⟩
    · rw [idle]
      refine ⟨fun member => absurd member List.not_mem_nil, ?_⟩
      rintro ⟨files, here, -⟩
      rw [fresh] at here
      cases here
    · have member := sound.refers k id refers
      rw [none_there] at member
      cases member
    · rintro rfl
      obtain ⟨files, here, -⟩ := (sound.compacting c run).stored
      rw [fresh] at here
      cases here
  · intro s' same
    refine .update same (.inr ⟨not_final_of_none fresh, ?_⟩)
    rw [none_there]
    exact List.nil_subset _

theorem newArchive_goes {new : NewArchive} (sound : Sound S s keys) (own : s.putting k = some p) (idle : p.phase.Idle)
    (lawful : new.Lawful S s) (found : Found) : Goes S s keys (s.newArchive k p new found) := by
  obtain ⟨-, chunk, isHash⟩ := sound.locked k p own
  obtain ⟨T, uses, size⟩ := lawful.uses
  have opened : Opened new.setup T ((⟨.new new.setup new.size, [], []⟩ : Writers).reserve new.setup k p.chunk found) := by
    rw [← size]
    refine Opened.reserve (.inl .new) ?_ (lawful.suits.isKey uses isHash) found
    rw [chunk]
    exact lawful.suits.call isHash
  unfold newArchive
  dsimp only
  cases result : HashBlobArchive.reserveIn new.setup (.new new.setup new.size) k p.chunk found with
  | mk writer answer =>
    cases answer with
    | ok r =>
      have record := HashBlobArchive.reserveIn_record result
      have hash : r.hash = k := congrArg Reserved.hash record
      have after : (⟨.new new.setup new.size, [], []⟩ : Writers).reserve new.setup k p.chunk found = ⟨writer, [r], []⟩ := by
        rw [Writers.reserve, result]
      rw [after] at opened ⊢
      have written := opened.write (List.mem_singleton_self r)
      have waiting : ((⟨writer, [r], []⟩ : Writers).write r).waiting = [] := List.erase_cons_head r []
      have holds : Holds S (.writing new.setup p.uuid ((⟨writer, [r], []⟩ : Writers).write r)) [r.hash] := by
        refine .writing uses lawful.suits written fun r' member => ?_
        rw [waiting, List.nil_append] at member
        rw [List.mem_singleton.mp member, hash]
        exact (congrArg Reserved.chunk record).trans chunk
      obtain ⟨files, follows⟩ := sound.setNew (Function.update s.writableArchives p.uuid (some new.id)) lawful.other
        lawful.fresh holds waiting
      refine ⟨_, files.setPutting (k := k) (q := some { p with phase := .persisted new.id }) (fun p' id r' mine => ?_)
        (fun p' mine => ?_) (fun p' id r' mine => ?_) fun p' id mine last => ?_, follows rfl⟩
      · rw [← Option.some.inj (own.symm.trans mine)]
        exact idle.not_reserved id r'
      · rw [← Option.some.inj mine]
        exact sound.locked k p own
      · rw [← Option.some.inj mine]
        exact Phase.noConfusion
      · rw [← Option.some.inj mine] at last
        obtain rfl := Phase.persisted.inj last
        dsimp only
        rw [Function.update_self, Function.update_self, hash]
        refine ⟨List.mem_singleton_self k, fun files here => ?_⟩
        rw [← Option.some.inj here]
        exact fun stored => stored
    | error e =>
      have after : (⟨.new new.setup new.size, [], []⟩ : Writers).reserve new.setup k p.chunk found = ⟨writer, [], []⟩ := by
        rw [Writers.reserve, result]
      rw [after] at opened ⊢
      have holds : Holds S (.writing new.setup p.uuid ⟨writer, [], []⟩) [] :=
        .writing uses lawful.suits opened fun r member => absurd member List.not_mem_nil
      obtain ⟨files, follows⟩ := sound.setNew s.writableArchives lawful.other lawful.fresh holds rfl
      exact ⟨_, files.setPhase own idle.not_reserved trivial, follows rfl⟩

theorem lockedPut_goes {new : NewArchive} (sound : Sound S s keys) (lawful : new.Lawful S s) (hash : Bytes) (found : Found) :
    Goes S s keys (s.lockedPut hash found new) := by
  unfold lockedPut
  split
  · rename_i p own
    split
    · rename_i phase
      have idle : p.phase.Idle := by
        rw [phase]
        trivial
      split
      · exact newArchive_goes sound own idle lawful found
      · split
        · rename_i a uuid w here
          split
          · refine putChunk_goes sound own idle here fun e phase next => .inl ?_
            rw [← Option.some.inj next]
            trivial
          · exact newArchive_goes sound own idle lawful found
        · exact newArchive_goes sound own idle lawful found
    · exact sound.goes rfl
  · exact sound.goes rfl

theorem write_goes (sound : Sound S s keys) (hash : Bytes) : Goes S s keys (s.write hash) := by
  unfold ChunkStore.write
  split
  · rename_i p own
    split
    · rename_i id r phase
      split
      · rename_i a uuid w here
        obtain ⟨same, waits⟩ := sound.reserved hash p id r own phase
        have member := (waits_iff here).mp waits
        obtain ⟨T, uses, suits, opened, contents, before⟩ := (sound.files id _ here).of_writing
        have single : w.waiting.Nodup := (List.Nodup.of_append_left (List.Nodup.of_map _ (opened.keys uses).1))
        refine ⟨_, sound.turn here own (fun j r' last => ?_) (.writing uses suits (opened.write member) fun r' there => ?_)
          (fun r' => List.mem_cons_of_mem r) (fun r' => ?_) (fun j r' last => nomatch last) (fun j last => ?_),
          .update rfl (.inr ⟨not_final_of_writing here, ?_⟩)⟩
        · rw [phase] at last
          exact (Phase.reserved.inj last).1.symm
        · refine contents r' ?_
          rcases List.mem_append.mp there with still | done
          · exact List.mem_append_left _ (List.mem_of_mem_erase still)
          · rcases List.mem_cons.mp done with rfl | earlier
            · exact List.mem_append_left _ member
            · exact List.mem_append_right _ earlier
        · show r' ∈ w.waiting.erase r ↔ _
          rw [single.mem_erase_iff]
          constructor
          · rintro ⟨other, earlier⟩
            refine .inl ⟨earlier, fun mine => other ?_⟩
            -- A call has one record.
            obtain ⟨p', own', phase'⟩ := sound.waiting id r' ((waits_iff here).mpr earlier)
            rw [mine, own] at own'
            rw [← Option.some.inj own', phase] at phase'
            exact (Phase.reserved.inj phase').2.symm
          · rintro (⟨earlier, other⟩ | last)
            · exact ⟨fun mine => other (mine ▸ same), earlier⟩
            · cases last
        · obtain rfl := Phase.persisted.inj last
          exact ⟨rfl, List.mem_map.mpr ⟨r, List.mem_cons_self, same⟩⟩
        · rw [before]
          exact List.subset_cons_self _ _
      · exact sound.goes rfl
    · exact sound.goes rfl
  · exact sound.goes rfl

theorem Sound.putLocated {m' : RocksDBMap} {pos : Int} (sound : Sound S s keys) (own : s.putting k = some p)
    (phase : p.phase = .persisted pos)
    (location : ∀ h, m'.location h = if h = k then some pos else s.hashes.location h) (apart : m'.Apart)
    (opened : m'.closed = false) : Sound S { s.giveUp k with hashes := m' } keys := by
  have gives := sound.giveUp own fun id r last => by
    rw [phase] at last
    cases last
  have refers : ∀ h id, Refers { s.giveUp k with hashes := m' } h id → s.Refers h id := by
    rintro h id (there | waits)
    · replace there : m'.location h = some id := there
      rw [location] at there
      split at there
      · rename_i same
        rw [Option.some.inj there] at phase
        exact .inr ⟨p, by rw [same]; exact own, phase⟩
      · exact .inl there
    · rcases refers_update (.inr waits) with before | ⟨-, p', none_left, -⟩
      · exact before
      · cases none_left
  refine ⟨apart, opened, sound.files, sound.vacant, sound.never, fun h p' mine => ?_, gives.reserved, gives.waiting,
    fun h id there => sound.refers h id (refers h id there),
    fun c run => (sound.compacting c run).of rfl fun h there => refers h c.id there⟩
  obtain ⟨before, rest⟩ := gives.locked h p' mine
  refine ⟨?_, rest⟩
  replace mine : Function.update s.putting k none h = some p' := mine
  have other : h ≠ k := by
    rintro rfl
    rw [Function.update_self] at mine
    cases mine
  show m'.location h = none
  rw [location, if_neg other]
  exact before

theorem finish_goes (sound : Sound S s keys) (hash : Bytes) : Goes S s keys (s.finish hash) := by
  unfold finish
  split
  · rename_i p own
    split
    · rename_i cPos phase
      split
      · rename_i r m' done
        have counted := RocksDBMap.put_counted done
        have absent := (sound.locked hash p own).1
        refine Sound.goes (sound.putLocated own phase (fun h => ?_) (counted.apart sound.apart)
          (counted.closed.trans sound.opened)) rfl
        split
        · rename_i same
          rw [same]
          exact RocksDBMap.put_new absent done
        · rename_i other
          exact counted.location_other other
      · refine Sound.goes (sound.giveUp own fun id r last => ?_) rfl
        rw [phase] at last
        cases last
    · exact sound.goes rfl
  · exact sound.goes rfl

/-! ### The map -/

theorem onHashes_goes {e : RocksDBMap.Step} (sound : Sound S s keys) (other : ∀ cm stored, e ≠ .put cm stored) :
    Goes S s keys (s.onHashes e) := by
  unfold onHashes
  cases done : s.hashes.step e with
  | error failure => exact sound.goes rfl
  | ok m' =>
    refine Sound.goes (sound.hashes (fun k pos found => ?_) (RocksDBMap.step_apart sound.apart done) ?_) rfl
    · rcases RocksDBMap.step_location done found with before | ⟨cm, stored, put, -⟩
      · exact before
      · exact absurd put (other cm stored)
    · rw [RocksDBMap.step_closed done]
      exact sound.opened

theorem onKey_goes {e : RocksDBMap.Step} (sound : Sound S s keys) (hash : Bytes) (other : ∀ cm stored, e ≠ .put cm stored) :
    Goes S s keys (s.onKey hash e) := by
  unfold onKey
  split
  · exact sound.goes rfl
  · exact onHashes_goes sound other

theorem claimNext_goes (sound : Sound S s keys) : Goes S s keys s.claimNext := by
  unfold claimNext
  split
  · exact onKey_goes sound _ fun cm stored => RocksDBMap.Step.noConfusion
  · exact onHashes_goes sound fun cm stored => RocksDBMap.Step.noConfusion

/-! ### Archives -/

theorem upload_goes (sound : Sound S s keys) (id : Int) : Goes S s keys (s.upload id) := by
  unfold upload
  split
  · rename_i a uuid w here
    obtain ⟨T, uses, suits, opened, contents, before⟩ := (sound.files id _ here).of_writing
    refine ⟨_, sound.setFiles (Function.update s.writableArchives uuid none) s.compacting (sound.ne_never here)
      (.writing uses suits opened.close contents) (fun r => ?_) (fun k refers => ?_)
      (fun c run => ⟨run, sound.not_compacting run here fun stored => stored⟩),
      .update rfl (.inr ⟨not_final_of_writing here, ?_⟩)⟩
    · rw [waits_iff here]
      exact Iff.rfl
    · show k ∈ w.returned.map Reserved.hash
      rw [← before]
      exact sound.refers k id refers
    · rw [before]
      exact List.Subset.refl _
  · exact sound.goes rfl

theorem moveFile_goes (sound : Sound S s keys) (id : Int) : Goes S s keys (s.moveFile id) := by
  unfold moveFile
  split
  · rename_i a uuid w here
    split
    · rename_i idle
      obtain ⟨T, uses, suits, opened, contents, before⟩ := (sound.files id _ here).of_writing
      have sealed := opened.stored uses idle.2
      have short : ∀ r ∈ w.returned, r.stored.length ≤ S.m := by
        intro r member
        rw [(sealed.placed r member).stored, contents r (List.mem_append_right _ member)]
        exact suits.stored r.hash
      refine ⟨_, sound.setFiles s.writableArchives s.compacting (sound.ne_never here)
        (.stored sealed (opened.small uses idle.2 suits.bounded short) (uses.hashLength.trans suits.hashLength)
          fun r member => contents r (List.mem_append_right _ member)) (fun r => ?_) (fun k refers => ?_)
        (fun c run => ⟨run, sound.not_compacting run here fun stored => stored⟩), .update rfl (.inl stored_not_writing)⟩
      · rw [waits_iff here]
        show r ∈ [] ↔ r ∈ w.waiting
        rw [idle.2]
      · rw [← before]
        exact sound.refers k id refers
    · exact sound.goes rfl
  · exact sound.goes rfl

/-! ### Compactions -/

theorem Sound.setCompacting {c' : Compaction} (sound : Sound S s keys) (asks : s.Asks (keys c'.id) c') :
    Sound S { s with compacting := some c' } keys := by
  refine ⟨sound.apart, sound.opened, sound.files, sound.vacant, sound.never, sound.locked, sound.reserved, sound.waiting,
    sound.refers, fun c run => ?_⟩
  rw [← Option.some.inj run]
  exact asks.of rfl fun k refers => refers

theorem compactArchive_goes (sound : Sound S s keys) (id : Int) (disableWrite mapped : Bool) :
    Goes S s keys (s.compactArchive site id disableWrite mapped) := by
  unfold compactArchive
  split
  · rename_i idle here
    split
    · exact sound.goes rfl
    obtain ⟨T, rs, sealed, small, hashLength, contents, known⟩ := (sound.files id _ here).of_stored
    obtain ⟨l, last, t, listed, perm, few, again, -⟩ := sealed.listed site
    obtain ⟨records, number⟩ := HashBlobArchive.listed_records perm few again
    rw [listed]
    refine Sound.goes (sound.setCompacting ⟨⟨_, here, trivial⟩, ?_, ?_, fun k refers => ?_⟩) rfl
    · rw [List.nil_append, known]
      exact records
    · rw [List.nil_append, known, List.length_map]
      exact number
    · have member := sound.refers k id refers
      rw [known, ← perm.mem_iff] at member
      rw [List.nil_append, List.map_append]
      exact List.mem_append_left _ member
  · exact sound.goes rfl

theorem compactNext_goes (sound : Sound S s keys) : Goes S s keys s.compactNext := by
  unfold compactNext
  split
  · rename_i id p rest ar run
    split
    · exact sound.goes rfl
    · rename_i unlocked
      have asks := sound.compacting _ run
      refine Sound.goes (sound.setCompacting ⟨asks.stored, fun e member => asks.listed e ?_, ?_, fun k refers => ?_⟩) rfl
      · dsimp only at member ⊢
        split at member
        · rwa [List.append_assoc] at member
        · rcases List.mem_append.mp member with asked | left
          · exact List.mem_append_left _ asked
          · exact List.mem_append_right _ (List.mem_cons_of_mem p left)
      · have number := asks.few
        dsimp only at number ⊢
        rw [List.length_append, List.length_cons] at number
        split
        · rw [List.length_append, List.length_append, List.length_singleton]
          omega
        · rw [List.length_append]
          omega
      · have member := asks.refers k refers
        dsimp only at member ⊢
        split
        · rwa [List.append_assoc]
        · rename_i gone
          rw [List.map_append, List.map_cons] at member
          rw [List.map_append]
          rcases List.mem_append.mp member with asked | left
          · exact List.mem_append_left _ asked
          rcases List.mem_cons.mp left with rfl | later
          · -- The map has the key, so that it was not dropped.
            rcases refers with there | ⟨p', own, -⟩
            · exact absurd (RocksDBMap.mightContainKey_eq_location.mpr ⟨_, there, .inl rfl⟩) gone
            · rw [unlocked] at own
              cases own
          · exact List.mem_append_right _ later
  · exact sound.goes rfl

theorem chunkOf_content {rs : List Reserved} {chunk : Bytes} (single : (rs.map Reserved.hash).Nodup)
    (contents : ∀ r ∈ rs, r.chunk = S.content r.hash) (found : HashBlobArchive.chunkOf rs k = some chunk) :
    chunk = S.content k := by
  obtain ⟨r, record, rfl⟩ := Option.map_eq_some_iff.mp found
  obtain ⟨member, rfl⟩ := (HashBlobArchive.recordOf_some single).mp record
  exact contents r member

theorem compactEnd_goes {c : Outside} (sound : Sound S s keys) (whole : ¬ c.Splits)
    (rewrites : ∀ run st, s.compacting = some run → s.archives run.id = some (.stored st) → c.Lawful st.setup) :
    Goes S s keys (s.compactEnd site c) := by
  unfold compactEnd
  split
  · rename_i id ar run
    split
    · rename_i st here
      obtain ⟨T, rs, sealed, small, hashLength, contents, known⟩ := (sound.files id _ here).of_stored
      have lawful := rewrites _ st run here
      have asks := sound.compacting _ run
      have listed : ∀ e ∈ ar, e.1 ∈ rs.map Reserved.hash := by
        intro e member
        rw [← known]
        exact asks.listed e (List.mem_append_left _ member)
      have number : ar.length ≤ rs.length + 1 := by
        have few := asks.few
        rw [List.append_nil, known, List.length_map] at few
        exact few
      have needed : ∀ k, s.Refers k id → k ∈ ar.map Prod.fst := by
        intro k refers
        have member := asks.refers k refers
        rwa [List.append_nil] at member
      have waits : ∀ r, r ∈ [] ↔ s.Waits id r := by
        intro r
        rw [waits_iff here]
        exact Iff.rfl
      rcases HashBlobArchive.compactRest_cases site sealed small lawful whole listed number with
        ⟨same, -⟩ | ⟨gone, none_left⟩ | ⟨st', T', done, new, compacted⟩
      · rw [same]
        refine ⟨_, sound.setFiles s.writableArchives none (sound.ne_never here) (.stored sealed small hashLength contents)
          waits (fun k refers => ?_) (fun c none_runs => nomatch none_runs), .update rfl (.inl stored_not_writing)⟩
        rw [← known]
        exact sound.refers k id refers
      · rw [gone]
        refine ⟨_, sound.setFiles s.writableArchives none (sound.ne_never here) .deleted waits (fun k refers => ?_)
          (fun c none_runs => nomatch none_runs), .update rfl (.inl deleted_not_writing)⟩
        have member := needed k refers
        rw [none_left] at member
        cases member
      · rw [new]
        refine ⟨_, sound.setFiles s.writableArchives none (sound.ne_never here)
          (.stored compacted.stored compacted.small (compacted.hashLength.trans hashLength) fun r member => ?_) waits
          (fun k refers => ?_) (fun c none_runs => nomatch none_runs), .update rfl (.inl stored_not_writing)⟩
        · have copied := (compacted.stored.read_record site member).2
          rw [compacted.chunks] at copied
          split at copied
          · exact chunkOf_content sealed.single contents copied
          · cases copied
        · have member := sound.refers k id refers
          rw [known] at member
          obtain ⟨r, inside, rfl⟩ := List.mem_map.mp member
          by_contra absent
          have copied := compacted.chunks r.hash
          rw [if_pos (needed r.hash refers), (sealed.read_record site inside).2,
            HashBlobArchive.chunkOf_none absent] at copied
          cases copied
    · exact sound.goes rfl
  · exact sound.goes rfl

end EncryptedDedup.SDFS.ChunkStore
