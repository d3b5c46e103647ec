import EncryptedDedup.SDFS.CollectorSafety

/-!
# Lookups of `RocksDBMap`

`get` and `mightContainKey` look into the temporary table first. `containsKey` does not, and misses a key until its
archive is synced.
-/

namespace EncryptedDedup.SDFS.RocksDBMap

def containsKey (m : RocksDBMap) (key : Bytes) : Except Failure Bool :=
  if m.closed then .error .closed else .ok (m.dbs.get key).isSome

def get (m : RocksDBMap) (key : Bytes) : Int :=
  match m.tempHt.get key with
  | some bf => bf.pos
  | none => match m.dbs.get key with
    | none => -1
    | some v => v.pos

def mightContainKey (m : RocksDBMap) (key : Bytes) (archive : Int) : Bool :=
  match (m.tempHt.get key).or (m.dbs.get key) with
  | none => false
  | some k => !(decide (k.pos ≠ archive) && decide (archive ≠ -1))

/-- `update(cm)`, with the hash of `cm` and its `cPos`. -/
def update (m : RocksDBMap) (hash : Bytes) (cPos : Int) : Bool × RocksDBMap :=
  match m.dbs.get hash with
  | none => (false, m)
  | some v => (true, { m with dbs := m.dbs.put hash { v with pos := cPos } })

def remove (m : RocksDBMap) (hash : Bytes) : Except Failure (Bool × RocksDBMap) :=
  if m.closed then .error .closed
  else match m.dbs.get hash with
    | none => .ok (false, m)
    | some _ => .ok (true, { m with dbs := m.dbs.delete hash })

/-! ### Runs -/

/-- The states that calls reach, in any order; a call that throws changes nothing. -/
inductive Reached (m : RocksDBMap) : RocksDBMap → Prop where
  | start : Reached m m
  | step {m' m'' : RocksDBMap} (s : Step) : Reached m m' → m'.step s = .ok m'' → Reached m m''
  | update {m' : RocksDBMap} (hash : Bytes) (cPos : Int) : Reached m m' → Reached m (m'.update hash cPos).2
  | remove {m' m'' : RocksDBMap} {hash : Bytes} {r : Bool} : Reached m m' → m'.remove hash = .ok (r, m'') → Reached m m''

def LookupsAgree (m : RocksDBMap) (k : Bytes) : Prop :=
  m.containsKey k = .ok (decide (m.get k ≠ -1)) ∧ m.containsKey k = .ok (m.mightContainKey k (-1))

/-- The key does not wait for the sync of an archive, and is not at location -1. -/
def Settled (m : RocksDBMap) (k : Bytes) : Prop :=
  m.tempHt.get k = none ∧ ∀ v, m.dbs.get k = some v → v.pos ≠ -1

variable {m m' : RocksDBMap} {k hash : Bytes}

theorem Counted.closed (counted : Counted m hash m') : m'.closed = m.closed := by
  cases counted <;> rfl

theorem Collected.closed {bk : RemovalRecord} (collected : Collected m hash bk m') : m'.closed = m.closed := by
  cases collected <;> rfl

theorem step_closed {s : Step} (done : m.step s = .ok m') : m'.closed = m.closed := by
  cases s with
  | put cm stored =>
    obtain ⟨r, given⟩ := put_of_step done
    exact (put_counted given).closed
  | claimKey hash val ct =>
    cases done
    exact (claimKey_counted m hash val ct).closed
  | hashBlobArchiveSync b =>
    rcases sync_moves done with rfl | ⟨bf, -, -, rfl⟩
    · rfl
    · rfl
  | startClaimRecords =>
    rw [startClaimRecords_eq done]
  | claimNext =>
    rcases claimNext_eq done with rfl | ⟨hash, bk, rest, -, rfl⟩
    · rfl
    · exact (claimRecord_collected m hash bk).closed
  | tick millis =>
    cases done
    rfl

theorem update_cases (m : RocksDBMap) (hash : Bytes) (cPos : Int) :
    m.update hash cPos = (false, m) ∨ ∃ v, m.dbs.get hash = some v ∧
      m.update hash cPos = (true, { m with dbs := m.dbs.put hash { v with pos := cPos } }) := by
  unfold update
  cases db : m.dbs.get hash with
  | none => exact .inl rfl
  | some v => exact .inr ⟨v, rfl, rfl⟩

theorem remove_cases {r : Bool} (done : m.remove hash = .ok (r, m')) :
    (r = false ∧ m' = m) ∨ (r = true ∧ (m.dbs.get hash).isSome ∧ m' = { m with dbs := m.dbs.delete hash }) := by
  unfold remove at done
  split at done
  · cases done
  · cases db : m.dbs.get hash with
    | none =>
      rw [db] at done
      cases done
      exact .inl ⟨rfl, rfl⟩
    | some v =>
      rw [db] at done
      cases done
      exact .inr ⟨rfl, rfl, rfl⟩

theorem update_apart (apart : m.Apart) (hash : Bytes) (cPos : Int) : (m.update hash cPos).2.Apart := by
  rcases update_cases m hash cPos with same | ⟨v, db, same⟩
  · rw [same]
    exact apart
  · rw [same]
    intro k there
    have other : k ≠ hash := by
      rintro rfl
      rw [apart k there] at db
      cases db
    dsimp only
    rw [OrderedMap.get_put_other _ _ other]
    exact apart k there

theorem remove_apart {r : Bool} (apart : m.Apart) (done : m.remove hash = .ok (r, m')) : m'.Apart := by
  rcases remove_cases done with ⟨-, rfl⟩ | ⟨-, -, rfl⟩
  · exact apart
  · intro k there
    dsimp only
    rw [OrderedMap.get_delete]
    split
    · rfl
    · exact apart k there

/-- No key is ever in both tables, and the map stays open. -/
theorem Reached.apart (reached : Reached m m') (start : m.Apart) (opened : m.closed = false) :
    m'.Apart ∧ m'.closed = false := by
  induction reached with
  | start => exact ⟨start, opened⟩
  | step s _ done ih => exact ⟨step_apart ih.1 done, (step_closed done).trans ih.2⟩
  | update hash cPos _ ih =>
    refine ⟨update_apart ih.1 hash cPos, ?_⟩
    rename_i before _
    rcases update_cases before hash cPos with same | ⟨v, -, same⟩
    · rw [same]
      exact ih.2
    · rw [same]
      exact ih.2
  | remove _ done ih =>
    refine ⟨remove_apart ih.1 done, ?_⟩
    rcases remove_cases done with ⟨-, rfl⟩ | ⟨-, -, rfl⟩
    · exact ih.2
    · exact ih.2

/-! ### Lookups -/

theorem mightContainKey_all (m : RocksDBMap) (k : Bytes) :
    m.mightContainKey k (-1) = ((m.tempHt.get k).isSome || (m.dbs.get k).isSome) := by
  unfold mightContainKey
  cases m.tempHt.get k with
  | some bf => simp
  | none =>
    cases m.dbs.get k with
    | some v => simp
    | none => rfl

theorem lookupsAgree_iff (apart : m.Apart) (opened : m.closed = false) : LookupsAgree m k ↔ Settled m k := by
  unfold LookupsAgree Settled containsKey
  rw [opened, mightContainKey_all]
  simp only [Bool.false_eq_true, if_false, Except.ok.injEq]
  unfold get
  cases temp : m.tempHt.get k with
  | some bf =>
    have db : m.dbs.get k = none := apart k (by rw [temp]; rfl)
    simp [db]
  | none =>
    cases db : m.dbs.get k with
    | some v => simp
    | none => simp

theorem get_removed (apart : m.Apart) (done : m.remove hash = .ok (true, m')) : m'.get hash = -1 := by
  rcases remove_cases done with ⟨wrong, -⟩ | ⟨-, present, rfl⟩
  · cases wrong
  · have temp : m.tempHt.get hash = none := by
      by_contra there
      rw [apart hash (Option.isSome_iff_ne_none.mpr there)] at present
      cases present
    unfold get
    dsimp only
    rw [temp, OrderedMap.get_delete, if_pos rfl]

theorem get_updated (apart : m.Apart) {cPos : Int} (done : m.update hash cPos = (true, m')) : m'.get hash = cPos := by
  rcases update_cases m hash cPos with same | ⟨v, db, same⟩
  · rw [same] at done
    cases done
  · rw [same] at done
    cases done
    have temp : m.tempHt.get hash = none := by
      by_contra there
      rw [apart hash (Option.isSome_iff_ne_none.mpr there)] at db
      cases db
    unfold get
    dsimp only
    rw [temp, OrderedMap.get_put_same]

/-- In every state that is reached the lookups agree on a key exactly if it does not wait for a sync, and is not stored at
location -1. A key that was removed is absent, and one that was updated is at its new location. -/
theorem lookups_iff {start : RocksDBMap} (init : start.tempHt = .empty) (opened : start.closed = false)
    (reached : Reached start m) :
    (∀ k, LookupsAgree m k ↔ Settled m k) ∧
    (∀ hash m', m.remove hash = .ok (true, m') → m'.get hash = -1) ∧
    (∀ hash cPos m', m.update hash cPos = (true, m') → m'.get hash = cPos) := by
  have start_apart : start.Apart := by
    intro k there
    rw [init] at there
    cases there
  obtain ⟨apart, still⟩ := reached.apart start_apart opened
  exact ⟨fun k => lookupsAgree_iff apart still, fun hash m' done => get_removed apart done,
    fun hash cPos m' done => get_updated apart done⟩

theorem Steps.reached {Q : RocksDBMap → Step → Prop} (steps : Steps Q m m') : Reached m m' := by
  induction steps with
  | none => exact .start
  | next _ _ done ih => exact .step _ ih done
  | throws _ _ ih => exact ih

def halfSynced : List Step := [.put ⟨[1], 1⟩ (some 7), .put ⟨[2], 1⟩ (some 8), .hashBlobArchiveSync [1]]

theorem lookups_iff_halfSynced : ∃ m, halfSynced.foldlM step fresh = .ok m ∧ Settled m [1] ∧ ¬ Settled m [2] ∧
    (∀ k, LookupsAgree m k ↔ Settled m k) ∧
    (∀ hash m', m.remove hash = .ok (true, m') → m'.get hash = -1) ∧
    (∀ hash cPos m', m.update hash cPos = (true, m') → m'.get hash = cPos) := by
  obtain ⟨m, ran, synced, unsynced⟩ : ∃ m, halfSynced.foldlM step fresh = .ok m ∧
      (m.tempHt.get [1] = none ∧ (m.dbs.get [1]).map CountRecord.pos = some 7) ∧ (m.tempHt.get [2]).isSome :=
    ⟨_, rfl, ⟨by decide +kernel, by decide +kernel⟩, by decide +kernel⟩
  refine ⟨m, ran, ⟨synced.1, fun v found => ?_⟩, fun settled => ?_, lookups_iff rfl rfl (steps_of_foldlM .none ran).reached⟩
  · rw [found, Option.map_some, Option.some_inj] at synced
    rw [synced.2]
    decide
  · rw [settled.1] at unsynced
    cases unsynced

/-- Before the sync `get` finds a key that `containsKey` does not. -/
theorem unsynced_disagrees : ∃ m, Reached fresh m ∧ m.get [1] = 7 ∧ m.mightContainKey [1] (-1) = true ∧
    m.containsKey [1] = .ok false ∧ ¬ LookupsAgree m [1] := by
  obtain ⟨m, ran, found, known, missed⟩ : ∃ m, fresh.step (.put ⟨[1], 1⟩ (some 7)) = .ok m ∧ m.get [1] = 7 ∧
      m.mightContainKey [1] (-1) = true ∧ m.containsKey [1] = .ok false :=
    ⟨_, rfl, by decide +kernel, by decide +kernel, rfl⟩
  refine ⟨m, .step _ .start ran, found, known, missed, fun agree => ?_⟩
  have same := agree.2
  rw [known, missed] at same
  cases same

end EncryptedDedup.SDFS.RocksDBMap
