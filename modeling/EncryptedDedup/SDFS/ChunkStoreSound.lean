import EncryptedDedup.SDFS.ChunkLocations

/-!
# What holds in a chunk store

Equal hashes are hashes of equal chunks. A key in the map is in the archive that the map says, and its chunk is read from
there.
-/

namespace EncryptedDedup.SDFS.ChunkStore

open HashBlobArchive (Archive Writers Stored Site Found PutError Reserved Outside Sealed Small Opened Call)
open SimpleByteArrayLongMap (Layout IsKey)

/-- Keys have `n` bytes, `content` is the chunk of a key, and at most `m` bytes are stored for it. -/
structure Setting where
  n : Nat
  m : Nat
  content : Bytes → Bytes
  nonempty : ∀ hash, content hash ≠ []
  small : ∀ hash, (content hash).length < 2 ^ 31

variable {S : Setting}

/-- The key has the length of a hash, and is not the one of free slots. -/
def Setting.IsHash (S : Setting) (hash : Bytes) : Prop := hash.length = S.n ∧ hash ≠ zeros S.n

/-- An archive for the keys and their chunks. -/
structure Setting.Suits (S : Setting) (a : Archive) : Prop where
  hashLength : a.hashLength = S.n
  bounded : a.Bounded S.m
  stored : ∀ hash, (a.encode (S.content hash)).length ≤ S.m

inductive Holds (S : Setting) : Files → List Bytes → Prop where
  | writing {a : Archive} {uuid : String} {w : Writers} {T : Layout} : a.Uses T → S.Suits a → Opened a T w →
    (∀ r ∈ w.waiting ++ w.returned, r.chunk = S.content r.hash) → Holds S (.writing a uuid w) (w.returned.map Reserved.hash)
  | stored {st : Stored} {T : Layout} {rs : List Reserved} : Sealed T st rs → Small st rs → T.hashLength = S.n →
    (∀ r ∈ rs, r.chunk = S.content r.hash) → Holds S (.stored st) (rs.map Reserved.hash)
  | deleted : Holds S .deleted []

def Files.waiting : Files → List Reserved
  | .writing _ _ w => w.waiting
  | _ => []

def Files.IsStored : Files → Prop
  | .stored _ => True
  | _ => False

def Waits (s : ChunkStore) (id : Int) (r : Reserved) : Prop := ∃ files, s.archives id = some files ∧ r ∈ files.waiting

/-- The map has the key in the archive, or is about to. -/
def Refers (s : ChunkStore) (k : Bytes) (id : Int) : Prop :=
  s.hashes.location k = some id ∨ ∃ p, s.putting k = some p ∧ p.phase = .persisted id

/-- A compaction has asked for `ar`, and has still to ask for `rest`. No key that the map has in the archive is missing. -/
structure Asks (s : ChunkStore) (keys : List Bytes) (c : Compaction) : Prop where
  stored : ∃ files, s.archives c.id = some files ∧ files.IsStored
  listed : ∀ e ∈ c.ar ++ c.rest, e.1 ∈ keys
  few : (c.ar ++ c.rest).length ≤ keys.length + 1
  refers : ∀ k, s.Refers k c.id → k ∈ (c.ar ++ c.rest).map Prod.fst

/-- What holds between the steps; archive `id` has the chunks of `keys id`. -/
structure Sound (S : Setting) (s : ChunkStore) (keys : Int → List Bytes) : Prop where
  apart : s.hashes.Apart
  opened : s.hashes.closed = false
  files : ∀ id files, s.archives id = some files → Holds S files (keys id)
  vacant : ∀ id, s.archives id = none → keys id = []
  never : s.archives (-1) = none
  locked : ∀ k p, s.putting k = some p → s.hashes.location k = none ∧ p.chunk = S.content k ∧ S.IsHash k
  reserved : ∀ k p id r, s.putting k = some p → p.phase = .reserved id r → r.hash = k ∧ s.Waits id r
  waiting : ∀ id r, s.Waits id r → ∃ p, s.putting r.hash = some p ∧ p.phase = .reserved id r
  refers : ∀ k id, s.Refers k id → k ∈ keys id
  compacting : ∀ c, s.compacting = some c → s.Asks (keys c.id) c

variable {s : ChunkStore} {keys : Int → List Bytes} {k : Bytes} {id : Int} {p : Putting}

/-! ### Reading -/

theorem Holds.read {files : Files} {ks : List Bytes} (holds : Holds S files ks) (site : Site) (member : k ∈ ks) :
    files.read site k = some (S.content k) := by
  cases holds with
  | writing uses suits opened contents =>
    obtain ⟨r, inside, rfl⟩ := List.mem_map.mp member
    have read := opened.read uses inside
    rw [contents r (List.mem_append_right _ inside)] at read
    exact read
  | stored sealed small hashLength contents =>
    obtain ⟨r, inside, rfl⟩ := List.mem_map.mp member
    have read := (sealed.read_record site inside).1
    rw [contents r inside] at read
    exact read
  | deleted => cases member

theorem Holds.isHash {files : Files} {ks : List Bytes} (holds : Holds S files ks) (member : k ∈ ks) : S.IsHash k := by
  unfold Setting.IsHash
  cases holds with
  | writing uses suits opened contents =>
    obtain ⟨r, inside, rfl⟩ := List.mem_map.mp member
    have plain := (opened.keys uses).2 r (List.mem_append_right _ inside)
    rw [← suits.hashLength, ← uses.hashLength]
    exact ⟨plain.length, plain.not_free⟩
  | stored sealed small hashLength contents =>
    obtain ⟨r, inside, rfl⟩ := List.mem_map.mp member
    have plain := sealed.plain r inside
    rw [← hashLength]
    exact ⟨plain.length, plain.not_free⟩
  | deleted => cases member

theorem Holds.of_writing {a : Archive} {uuid : String} {w : Writers} {ks : List Bytes}
    (holds : Holds S (.writing a uuid w) ks) :
    ∃ T, a.Uses T ∧ S.Suits a ∧ Opened a T w ∧ (∀ r ∈ w.waiting ++ w.returned, r.chunk = S.content r.hash) ∧
      ks = w.returned.map Reserved.hash := by
  cases holds with
  | writing uses suits opened contents => exact ⟨_, uses, suits, opened, contents, rfl⟩

theorem Holds.of_stored {st : Stored} {ks : List Bytes} (holds : Holds S (.stored st) ks) :
    ∃ T rs, Sealed T st rs ∧ Small st rs ∧ T.hashLength = S.n ∧ (∀ r ∈ rs, r.chunk = S.content r.hash) ∧
      ks = rs.map Reserved.hash := by
  cases holds with
  | stored sealed small hashLength contents => exact ⟨_, _, sealed, small, hashLength, contents, rfl⟩

/-! ### Frames -/

theorem Sound.ne_never {files : Files} (sound : Sound S s keys) (here : s.archives id = some files) : id ≠ -1 := by
  rintro rfl
  rw [sound.never] at here
  cases here

theorem Sound.not_compacting {files : Files} {c : Compaction} (sound : Sound S s keys) (run : s.compacting = some c)
    (here : s.archives id = some files) (other : ¬ files.IsStored) : c.id ≠ id := by
  rintro rfl
  obtain ⟨files', there, stored⟩ := (sound.compacting c run).stored
  rw [here] at there
  rw [← Option.some.inj there] at stored
  exact other stored

theorem waits_iff {files : Files} {r : Reserved} (here : s.archives id = some files) : s.Waits id r ↔ r ∈ files.waiting := by
  unfold Waits
  rw [here]
  simp

theorem Asks.of {s' : ChunkStore} {ks : List Bytes} {c : Compaction} (asks : s.Asks ks c)
    (archives : s'.archives c.id = s.archives c.id) (refers : ∀ k, s'.Refers k c.id → s.Refers k c.id) : s'.Asks ks c := by
  refine ⟨?_, asks.listed, asks.few, fun k there => asks.refers k (refers k there)⟩
  rw [archives]
  exact asks.stored

theorem Sound.hashes {m' : RocksDBMap} (sound : Sound S s keys)
    (known : ∀ k pos, m'.location k = some pos → s.hashes.location k = some pos) (apart : m'.Apart)
    (opened : m'.closed = false) :
    Sound S { s with hashes := m' } keys where
  apart := apart
  opened := opened
  files := sound.files
  vacant := sound.vacant
  never := sound.never
  locked k p own := by
    obtain ⟨absent, rest⟩ := sound.locked k p own
    refine ⟨?_, rest⟩
    cases found : m'.location k with
    | none => rfl
    | some pos =>
      have before := known k pos found
      rw [absent] at before
      cases before
  reserved := sound.reserved
  waiting := sound.waiting
  refers k id refers := sound.refers k id (refers.imp_left (known k id))
  compacting c run := (sound.compacting c run).of rfl fun k refers => refers.imp_left (known k c.id)

theorem refers_update {q : Option Putting} {k' : Bytes} {id : Int}
    (refers : Refers { s with putting := Function.update s.putting k q } k' id) :
    s.Refers k' id ∨ k' = k ∧ ∃ p, q = some p ∧ p.phase = .persisted id := by
  rcases refers with there | ⟨p, own, phase⟩
  · exact .inl (.inl there)
  · by_cases same : k' = k
    · dsimp only at own
      rw [same, Function.update_self] at own
      exact .inr ⟨same, p, own, phase⟩
    · dsimp only at own
      rw [Function.update_of_ne same] at own
      exact .inl (.inr ⟨p, own, phase⟩)

theorem Sound.setPutting {q : Option Putting} (sound : Sound S s keys)
    (free : ∀ p id r, s.putting k = some p → p.phase ≠ .reserved id r)
    (locked : ∀ p, q = some p → s.hashes.location k = none ∧ p.chunk = S.content k ∧ S.IsHash k)
    (unreserved : ∀ p id r, q = some p → p.phase ≠ .reserved id r)
    (persisted : ∀ p id, q = some p → p.phase = .persisted id →
      k ∈ keys id ∧ ∀ files, s.archives id = some files → ¬ files.IsStored) :
    Sound S { s with putting := Function.update s.putting k q } keys where
  apart := sound.apart
  opened := sound.opened
  files := sound.files
  vacant := sound.vacant
  never := sound.never
  locked k' p own := by
    dsimp only at own
    by_cases same : k' = k
    · subst same
      rw [Function.update_self] at own
      exact locked p own
    · rw [Function.update_of_ne same] at own
      exact sound.locked k' p own
  reserved k' p id r own phase := by
    dsimp only at own
    by_cases same : k' = k
    · rw [same, Function.update_self] at own
      exact absurd phase (unreserved p id r own)
    · rw [Function.update_of_ne same] at own
      exact sound.reserved k' p id r own phase
  waiting id r waits := by
    obtain ⟨p, own, phase⟩ := sound.waiting id r waits
    have other : r.hash ≠ k := fun same => free p id r (same ▸ own) phase
    refine ⟨p, ?_, phase⟩
    dsimp only
    rw [Function.update_of_ne other]
    exact own
  refers k' id refers := by
    rcases refers_update refers with before | ⟨rfl, p, own, phase⟩
    · exact sound.refers k' id before
    · exact (persisted p id own phase).1
  compacting c run := by
    refine (sound.compacting c run).of rfl fun k' refers => ?_
    rcases refers_update refers with before | ⟨-, p, own, phase⟩
    · exact before
    · obtain ⟨files, here, stored⟩ := (sound.compacting c run).stored
      exact absurd stored ((persisted p c.id own phase).2 files here)

theorem Sound.setFiles {files' : Files} {ks : List Bytes} (sound : Sound S s keys) (wa : String → Option Int)
    (c' : Option Compaction) (other : id ≠ -1) (holds : Holds S files' ks)
    (waits : ∀ r, r ∈ files'.waiting ↔ s.Waits id r) (kept : ∀ k, s.Refers k id → k ∈ ks)
    (compacts : ∀ c, c' = some c → s.compacting = some c ∧ c.id ≠ id) :
    Sound S { s with
      archives := Function.update s.archives id (some files'), writableArchives := wa, compacting := c' }
      (Function.update keys id ks) := by
  have same : ∀ j r, Waits { s with
      archives := Function.update s.archives id (some files'), writableArchives := wa, compacting := c' } j r ↔
        s.Waits j r := by
    intro j r
    unfold Waits
    by_cases own : j = id
    · subst own
      dsimp only
      rw [Function.update_self]
      refine ⟨?_, fun there => ⟨files', rfl, (waits r).mpr there⟩⟩
      rintro ⟨files, here, there⟩
      rw [← Option.some.inj here] at there
      exact (waits r).mp there
    · dsimp only
      rw [Function.update_of_ne own]
  refine ⟨sound.apart, sound.opened, fun j files here => ?_, fun j gone => ?_, ?_, sound.locked, fun k p j r own phase => ?_,
    fun j r there => sound.waiting j r ((same j r).mp there), fun k j refers => ?_, fun c run => ?_⟩
  · dsimp only at here
    by_cases own : j = id
    · subst own
      rw [Function.update_self] at here ⊢
      rw [← Option.some.inj here]
      exact holds
    · rw [Function.update_of_ne own] at here ⊢
      exact sound.files j files here
  · dsimp only at gone
    by_cases own : j = id
    · rw [own, Function.update_self] at gone
      cases gone
    · rw [Function.update_of_ne own] at gone ⊢
      exact sound.vacant j gone
  · dsimp only
    rw [Function.update_of_ne other.symm]
    exact sound.never
  · obtain ⟨hash, there⟩ := sound.reserved k p j r own phase
    exact ⟨hash, (same j r).mpr there⟩
  · by_cases own : j = id
    · rw [own] at refers ⊢
      rw [Function.update_self]
      exact kept k refers
    · rw [Function.update_of_ne own]
      exact sound.refers k j refers
  · obtain ⟨before, apart⟩ := compacts c run
    rw [Function.update_of_ne apart]
    refine (sound.compacting c before).of ?_ fun k refers => refers
    dsimp only
    rw [Function.update_of_ne apart]

theorem Sound.turn {a : Archive} {uuid : String} {w w' : Writers} {phase : Phase} (sound : Sound S s keys)
    (here : s.archives id = some (.writing a uuid w)) (own : s.putting k = some p)
    (old : ∀ j r, p.phase = .reserved j r → j = id)
    (holds : Holds S (.writing a uuid w') (w'.returned.map Reserved.hash)) (more : ∀ r ∈ w.returned, r ∈ w'.returned)
    (waits : ∀ r, r ∈ w'.waiting ↔ (r ∈ w.waiting ∧ r.hash ≠ k) ∨ phase = .reserved id r)
    (reserved : ∀ j r, phase = .reserved j r → j = id ∧ r.hash = k)
    (persisted : ∀ j, phase = .persisted j → j = id ∧ k ∈ w'.returned.map Reserved.hash) :
    Sound S ((s.setArchive id (.writing a uuid w')).setPhase k p phase)
      (Function.update keys id (w'.returned.map Reserved.hash)) := by
  obtain ⟨-, -, -, -, -, before⟩ := (sound.files id _ here).of_writing
  have grown : ∀ h ∈ keys id, h ∈ w'.returned.map Reserved.hash := by
    rw [before]
    intro h member
    obtain ⟨r, inside, same⟩ := List.mem_map.mp member
    exact List.mem_map.mpr ⟨r, more r inside, same⟩
  have other := sound.ne_never here
  have refers' : ∀ k' j, Refers ((s.setArchive id (.writing a uuid w')).setPhase k p phase) k' j →
      s.Refers k' j ∨ k' = k ∧ phase = .persisted j := by
    intro k' j refers
    rcases @refers_update (s.setArchive id (.writing a uuid w')) k _ k' j refers with there | ⟨same, p', given, last⟩
    · exact .inl there
    · rw [← Option.some.inj given] at last
      exact .inr ⟨same, last⟩
  refine ⟨sound.apart, sound.opened, fun j files there => ?_, fun j gone => ?_, ?_, fun k' p' mine => ?_,
    fun k' p' j r mine last => ?_, fun j r there => ?_, fun k' j refers => ?_, fun c run => ?_⟩
  · replace there : Function.update s.archives id (some (.writing a uuid w')) j = some files := there
    by_cases same : j = id
    · subst same
      rw [Function.update_self] at there ⊢
      rw [← Option.some.inj there]
      exact holds
    · rw [Function.update_of_ne same] at there ⊢
      exact sound.files j files there
  · replace gone : Function.update s.archives id (some (.writing a uuid w')) j = none := gone
    by_cases same : j = id
    · rw [same, Function.update_self] at gone
      cases gone
    · rw [Function.update_of_ne same] at gone ⊢
      exact sound.vacant j gone
  · show Function.update s.archives id (some (.writing a uuid w')) (-1) = none
    rw [Function.update_of_ne other.symm]
    exact sound.never
  · replace mine : Function.update s.putting k (some { p with phase := phase }) k' = some p' := mine
    by_cases same : k' = k
    · subst same
      rw [Function.update_self] at mine
      rw [← Option.some.inj mine]
      exact sound.locked k' p own
    · rw [Function.update_of_ne same] at mine
      exact sound.locked k' p' mine
  · replace mine : Function.update s.putting k (some { p with phase := phase }) k' = some p' := mine
    show r.hash = k' ∧ ∃ files, Function.update s.archives id (some (.writing a uuid w')) j = some files ∧ r ∈ files.waiting
    by_cases same : k' = k
    · rw [same, Function.update_self] at mine
      rw [← Option.some.inj mine] at last
      obtain ⟨rfl, hash⟩ := reserved j r last
      rw [Function.update_self]
      exact ⟨hash.trans same.symm, _, rfl, (waits r).mpr (.inr last)⟩
    · rw [Function.update_of_ne same] at mine
      obtain ⟨hash, files, there, inside⟩ := sound.reserved k' p' j r mine last
      refine ⟨hash, ?_⟩
      by_cases there' : j = id
      · subst there'
        rw [here] at there
        rw [← Option.some.inj there] at inside
        rw [Function.update_self]
        exact ⟨_, rfl, (waits r).mpr (.inl ⟨inside, by rw [hash]; exact same⟩)⟩
      · rw [Function.update_of_ne there']
        exact ⟨files, there, inside⟩
  · obtain ⟨files, there, inside⟩ := there
    replace there : Function.update s.archives id (some (.writing a uuid w')) j = some files := there
    show ∃ p', Function.update s.putting k (some { p with phase := phase }) r.hash = some p' ∧ p'.phase = .reserved j r
    by_cases same : j = id
    · subst same
      rw [Function.update_self] at there
      rw [← Option.some.inj there] at inside
      rcases (waits r).mp inside with ⟨earlier, apart⟩ | last
      · rw [Function.update_of_ne apart]
        exact sound.waiting j r ⟨_, here, earlier⟩
      · rw [(reserved j r last).2, Function.update_self]
        exact ⟨_, rfl, last⟩
    · rw [Function.update_of_ne same] at there
      obtain ⟨p', mine, last⟩ := sound.waiting j r ⟨files, there, inside⟩
      have apart : r.hash ≠ k := by
        intro mine'
        rw [mine', own] at mine
        rw [← Option.some.inj mine] at last
        exact same (old j r last)
      rw [Function.update_of_ne apart]
      exact ⟨p', mine, last⟩
  · by_cases same : j = id
    · rw [same, Function.update_self]
      rcases refers' k' j refers with earlier | ⟨rfl, last⟩
      · exact grown k' (sound.refers k' id (same ▸ earlier))
      · exact (persisted j last).2
    · rw [Function.update_of_ne same]
      rcases refers' k' j refers with earlier | ⟨-, last⟩
      · exact sound.refers k' j earlier
      · exact absurd (persisted j last).1 same
  · replace run : s.compacting = some c := run
    have apart := sound.not_compacting run here fun stored => stored
    rw [Function.update_of_ne apart]
    refine (sound.compacting c run).of ?_ fun k' refers => ?_
    · show Function.update s.archives id (some (.writing a uuid w')) c.id = s.archives c.id
      rw [Function.update_of_ne apart]
    · rcases refers' k' c.id refers with earlier | ⟨-, last⟩
      · exact earlier
      · exact absurd (persisted c.id last).1 apart

end EncryptedDedup.SDFS.ChunkStore
