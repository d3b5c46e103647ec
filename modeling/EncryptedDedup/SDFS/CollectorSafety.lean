import EncryptedDedup.SDFS.RocksDBMap

/-!
# What the collector removes

A key that has references is not removed from the map, and its chunk is not deleted, as long as the
collector comes upon no key that is only in the temporary table and has references.
-/

namespace EncryptedDedup.SDFS.RocksDBMap

variable {m m' : RocksDBMap} {k : Bytes} {s : Step}

def references (m : RocksDBMap) (k : Bytes) : Int :=
  match m.tempHt.get k with
  | some bk => bk.ct
  | none => match m.dbs.get k with
    | some v => v.ct
    | none => 0

def Present (m : RocksDBMap) (k : Bytes) : Prop := (m.tempHt.get k).isSome ∨ (m.dbs.get k).isSome

/-- The key is still in the map, and its chunk was not given to `setmDelete`. -/
def Keeps (m m' : RocksDBMap) (k : Bytes) : Prop :=
  m'.Present k ∧ ∃ marks, m'.mDeleted = m.mDeleted ++ marks ∧ ∀ e ∈ marks, e.1 ≠ k

def SafeStep (m m' : RocksDBMap) : Prop := ∀ k, 0 < m.references k → Keeps m m' k

/-- Where the collector comes upon an overdue key that the tables of RocksDB do not have, the temporary
table has no references to it. -/
def Step.Clear (m : RocksDBMap) : Step → Prop
  | .claimNext => ∀ k bk rest, m.iter = some ((k, bk) :: rest) → (m.rmdb.get k).isSome → bk.tm < m.now →
    m.dbs.get k = none → m.references k ≤ 0
  | _ => True

def Apart (m : RocksDBMap) : Prop := ∀ k, (m.tempHt.get k).isSome → m.dbs.get k = none

theorem present_of_references (counted : 0 < m.references k) : m.Present k := by
  unfold references at counted
  unfold Present
  cases temp : m.tempHt.get k with
  | some bk => exact .inl rfl
  | none =>
    rw [temp] at counted
    cases db : m.dbs.get k with
    | some v => exact .inr rfl
    | none =>
      rw [db] at counted
      exact absurd counted (lt_irrefl 0)

theorem Keeps.quiet (marks : m'.mDeleted = m.mDeleted) (present : m'.Present k) : Keeps m m' k :=
  ⟨present, [], by rw [marks, List.append_nil], fun _ member => absurd member List.not_mem_nil⟩

theorem Keeps.trans {l : RocksDBMap} (first : Keeps l m k) (second : Keeps m m' k) : Keeps l m' k := by
  obtain ⟨-, marks, same, others⟩ := first
  obtain ⟨present, marks', same', others'⟩ := second
  refine ⟨present, marks ++ marks', by rw [same', same, List.append_assoc], fun e member => ?_⟩
  rcases List.mem_append.mp member with first | second
  · exact others e first
  · exact others' e second

/-! ### The tables after a step -/

/-- What a call does to the tables that hold counts: nothing, or it sets the count of one key. -/
inductive Counted (m : RocksDBMap) (hash : Bytes) : RocksDBMap → Prop where
  | none : Counted m hash m
  | temp (r : CountRecord) (rmdb : OrderedMap Bytes RemovalRecord) : m.dbs.get hash = .none ∨ (m.tempHt.get hash).isSome →
    Counted m hash { m with tempHt := m.tempHt.put hash r, rmdb }
  | db (r : CountRecord) (rmdb : OrderedMap Bytes RemovalRecord) : m.tempHt.get hash = .none →
    Counted m hash { m with dbs := m.dbs.put hash r, rmdb }

theorem put_counted {cm : ChunkData} {stored : Option Int} {r : Bool × Int} (done : m.put cm stored = .ok (r, m')) :
    Counted m cm.hash m' := by
  unfold put at done
  split at done
  · cases done
  · split at done
    · rename_i bk temp
      cases done
      exact .temp _ m.rmdb (.inr (by rw [temp]; rfl))
    · rename_i temp
      split at done
      · rename_i db
        split at done
        · cases done
        · cases done
          exact .temp _ m.rmdb (.inl db)
      · cases done
        exact .db _ _ temp

theorem claimKey_counted (m : RocksDBMap) (hash : Bytes) (val ct : Int) : Counted m hash (m.claimKey hash val ct).2 := by
  unfold claimKey
  split
  · rename_i bk temp
    split
    · exact .none
    · exact .temp _ _ (.inr (by rw [temp]; rfl))
  · rename_i temp
    split
    · split
      · exact .none
      · exact .db _ _ temp
    · exact .none

theorem Counted.keeps {hash : Bytes} (counted : Counted m hash m') (present : m.Present k) : Keeps m m' k := by
  cases counted with
  | none => exact .quiet rfl present
  | temp r rmdb fresh =>
    refine .quiet rfl ?_
    unfold Present at present ⊢
    rw [OrderedMap.get_put]
    split
    · exact .inl rfl
    · exact present
  | db r rmdb alone =>
    refine .quiet rfl ?_
    unfold Present at present ⊢
    rw [OrderedMap.get_put]
    split
    · exact .inr rfl
    · exact present

theorem Counted.apart {hash : Bytes} (counted : Counted m hash m') (apart : m.Apart) : m'.Apart := by
  cases counted with
  | none => exact apart
  | temp r rmdb fresh =>
    intro k there
    rw [OrderedMap.get_put] at there
    split at there
    · rename_i same
      rw [same]
      exact fresh.elim id (apart hash)
    · exact apart k there
  | db r rmdb alone =>
    intro k there
    have other : k ≠ hash := by
      rintro rfl
      rw [alone] at there
      cases there
    rw [OrderedMap.get_put_other _ _ other]
    exact apart k there

theorem sync_moves {b : Bytes} (done : m.hashBlobArchiveSync b = .ok m') :
    m' = m ∨ ∃ bf, m.tempHt.get b = some bf ∧ m.dbs.get b = none ∧
      m' = { m with dbs := m.dbs.put b bf, tempHt := m.tempHt.delete b } := by
  unfold hashBlobArchiveSync at done
  split at done
  · exact .inl (Except.ok.inj done).symm
  · rename_i bf temp
    split at done
    · cases done
    · rename_i db
      exact .inr ⟨bf, temp, db, (Except.ok.inj done).symm⟩

theorem sync_keeps {b : Bytes} (done : m.hashBlobArchiveSync b = .ok m') (present : m.Present k) : Keeps m m' k := by
  rcases sync_moves done with rfl | ⟨bf, temp, db, rfl⟩
  · exact .quiet rfl present
  · refine .quiet rfl ?_
    unfold Present at present ⊢
    rw [OrderedMap.get_put, OrderedMap.get_delete]
    by_cases same : k = b
    · rw [if_pos same, if_pos same]
      exact .inr rfl
    · rw [if_neg same, if_neg same]
      exact present

theorem sync_apart {b : Bytes} (done : m.hashBlobArchiveSync b = .ok m') (apart : m.Apart) : m'.Apart := by
  rcases sync_moves done with rfl | ⟨bf, temp, db, rfl⟩
  · exact apart
  · intro k there
    rw [OrderedMap.get_delete] at there
    split at there
    · cases there
    · rename_i other
      rw [OrderedMap.get_put_other _ _ other]
      exact apart k there

theorem sync_references {b : Bytes} (done : m.hashBlobArchiveSync b = .ok m') (k : Bytes) :
    m'.references k = m.references k := by
  rcases sync_moves done with rfl | ⟨bf, temp, db, rfl⟩
  · rfl
  · unfold references
    dsimp only
    rw [OrderedMap.get_put, OrderedMap.get_delete]
    by_cases same : k = b
    · rw [if_pos same, if_pos same, same, temp]
    · rw [if_neg same, if_neg same]

/-! ### The collector -/

/-- The collector removes its key or only forgets it, and touches nothing else. -/
inductive Collected (m : RocksDBMap) (hash : Bytes) (bk : RemovalRecord) : RocksDBMap → Prop where
  | skip : Collected m hash bk m
  | forget : (m.dbs.get hash).isSome → Collected m hash bk { m with rmdb := m.rmdb.delete hash }
  | remove (v : CountRecord) : m.dbs.get hash = some v → v.ct ≤ 0 →
    Collected m hash bk { m.setmDelete hash bk.pos with dbs := m.dbs.delete hash, rmdb := m.rmdb.delete hash }
  | delete : (m.rmdb.get hash).isSome → bk.tm < m.now → m.dbs.get hash = none →
    Collected m hash bk { m.setmDelete hash bk.pos with rmdb := m.rmdb.delete hash }

theorem claimRecord_collected (m : RocksDBMap) (hash : Bytes) (bk : RemovalRecord) :
    Collected m hash bk (m.claimRecord hash bk) := by
  unfold claimRecord
  split
  · exact .skip
  · rename_i r waits
    split
    · rename_i overdue
      split
      · rename_i v db
        split
        · rename_i unused
          exact .remove v db unused.1
        · exact .forget (by rw [db]; rfl)
      · rename_i db
        exact .delete (by rw [waits]; rfl) overdue db
    · exact .skip

theorem setmDelete_keeps {hash : Bytes} {pos : Int} (other : k ≠ hash) (present : m'.Present k)
    (marks : m'.mDeleted = (m.setmDelete hash pos).mDeleted) : Keeps m m' k := by
  refine ⟨present, [(hash, pos)], marks, fun e member => ?_⟩
  rw [List.mem_singleton.mp member]
  exact other.symm

theorem ne_of_unused (apart : m.Apart) (counted : 0 < m.references k) {hash : Bytes} {v : CountRecord}
    (db : m.dbs.get hash = some v) (unused : v.ct ≤ 0) : k ≠ hash := by
  rintro rfl
  unfold references at counted
  cases temp : m.tempHt.get k with
  | some bk =>
    rw [apart k (by rw [temp]; rfl)] at db
    cases db
  | none =>
    rw [temp, db] at counted
    exact absurd counted (not_lt.mpr unused)

theorem Collected.keeps {hash : Bytes} {bk : RemovalRecord} (collected : Collected m hash bk m') (apart : m.Apart)
    (counted : 0 < m.references k)
    (clear : k = hash → (m.rmdb.get hash).isSome → bk.tm < m.now → m.dbs.get hash ≠ none) : Keeps m m' k := by
  have present := present_of_references counted
  cases collected with
  | skip => exact .quiet rfl present
  | forget => exact .quiet rfl present
  | remove v db unused =>
    have other := ne_of_unused apart counted db unused
    refine setmDelete_keeps other ?_ rfl
    unfold Present at present ⊢
    rw [OrderedMap.get_delete_other _ other]
    exact present
  | delete waits overdue db =>
    have other : k ≠ hash := fun same => clear same waits overdue db
    exact setmDelete_keeps other present rfl

theorem Collected.apart {hash : Bytes} {bk : RemovalRecord} (collected : Collected m hash bk m') (apart : m.Apart) :
    m'.Apart := by
  cases collected with
  | skip => exact apart
  | forget => exact apart
  | remove v db unused =>
    intro k there
    rw [OrderedMap.get_delete]
    split
    · rfl
    · exact apart k there
  | delete => exact apart

theorem Collected.references {hash : Bytes} {bk : RemovalRecord} (collected : Collected m hash bk m') (apart : m.Apart)
    (counted : 0 < m.references k) : m'.references k = m.references k := by
  cases collected with
  | skip => rfl
  | forget => rfl
  | remove v db unused =>
    have other := ne_of_unused apart counted db unused
    unfold RocksDBMap.references
    dsimp only
    rw [OrderedMap.get_delete_other _ other]
    rfl
  | delete => rfl

/-! ### Steps -/

theorem put_of_step {cm : ChunkData} {stored : Option Int} (done : m.step (.put cm stored) = .ok m') :
    ∃ r, m.put cm stored = .ok (r, m') := by
  unfold step at done
  dsimp only at done
  cases given : m.put cm stored with
  | error e =>
    rw [given] at done
    cases done
  | ok r =>
    rw [given] at done
    cases done
    exact ⟨r.1, rfl⟩

theorem startClaimRecords_eq (done : m.startClaimRecords = .ok m') : m' = { m with iter := some m.rmdb.entries } := by
  unfold startClaimRecords at done
  split at done
  · cases done
  · split at done
    · cases done
    · exact (Except.ok.inj done).symm

theorem claimNext_eq (done : m.claimNext = .ok m') : m' = { m with iter := none } ∨
    ∃ hash bk rest, m.iter = some ((hash, bk) :: rest) ∧ m' = { m.claimRecord hash bk with iter := some rest } := by
  unfold claimNext at done
  split at done
  · cases done
  · exact .inl (Except.ok.inj done).symm
  · rename_i hash bk rest turn
    exact .inr ⟨hash, bk, rest, turn, (Except.ok.inj done).symm⟩

theorem step_apart (apart : m.Apart) (done : m.step s = .ok m') : m'.Apart := by
  cases s with
  | put cm stored =>
    obtain ⟨r, given⟩ := put_of_step done
    exact (put_counted given).apart apart
  | claimKey hash val ct =>
    cases done
    exact (claimKey_counted m hash val ct).apart apart
  | hashBlobArchiveSync b => exact sync_apart done apart
  | startClaimRecords =>
    rw [startClaimRecords_eq done]
    exact apart
  | claimNext =>
    rcases claimNext_eq done with rfl | ⟨hash, bk, rest, -, rfl⟩
    · exact apart
    · exact (claimRecord_collected m hash bk).apart apart
  | tick millis =>
    cases done
    exact apart

theorem step_keeps (apart : m.Apart) (done : m.step s = .ok m') (clear : s.Clear m) : SafeStep m m' := by
  intro k counted
  have present := present_of_references counted
  cases s with
  | put cm stored =>
    obtain ⟨r, given⟩ := put_of_step done
    exact (put_counted given).keeps present
  | claimKey hash val ct =>
    cases done
    exact (claimKey_counted m hash val ct).keeps present
  | hashBlobArchiveSync b => exact sync_keeps done present
  | startClaimRecords =>
    rw [startClaimRecords_eq done]
    exact .quiet rfl present
  | claimNext =>
    rcases claimNext_eq done with rfl | ⟨hash, bk, rest, turn, rfl⟩
    · exact .quiet rfl present
    · refine (claimRecord_collected m hash bk).keeps apart counted ?_
      rintro rfl waits overdue db
      exact absurd (clear k bk rest turn waits overdue db) (not_le.mpr counted)
  | tick millis =>
    cases done
    exact .quiet rfl present

/-- The collector deletes the chunk of a key that only the temporary table has, whatever its references. -/
theorem step_deletes (done : m.step s = .ok m') (hit : ¬ s.Clear m) : ¬ SafeStep m m' := by
  intro safe
  cases s with
  | claimNext =>
    have found : ∃ k bk rest, m.iter = some ((k, bk) :: rest) ∧ (m.rmdb.get k).isSome ∧ bk.tm < m.now ∧
        m.dbs.get k = none ∧ 0 < m.references k := by
      by_contra nowhere
      refine hit fun k bk rest turn waits overdue db => not_lt.mp fun counted => ?_
      exact nowhere ⟨k, bk, rest, turn, waits, overdue, db, counted⟩
    obtain ⟨k, bk, rest, turn, waits, overdue, db, counted⟩ := found
    obtain ⟨r, waiting⟩ := Option.isSome_iff_exists.mp waits
    have marked : m'.mDeleted = m.mDeleted ++ [(k, bk.pos)] := by
      have turned : m.step .claimNext = .ok { m.claimRecord k bk with iter := some rest } := by
        unfold step claimNext
        rw [turn]
      rw [turned] at done
      obtain rfl := Except.ok.inj done
      unfold claimRecord
      rw [waiting]
      dsimp only
      rw [if_pos overdue, db]
      rfl
    obtain ⟨-, marks, same, others⟩ := safe k counted
    rw [marked] at same
    have added := List.append_cancel_left same
    exact others (k, bk.pos) (added ▸ List.mem_singleton_self _) rfl
  | _ => exact hit trivial

/-! ### Runs -/

/-- Steps one after another, of each of which `Q` holds. A call that throws changes nothing. -/
inductive Steps (Q : RocksDBMap → Step → Prop) (m : RocksDBMap) : RocksDBMap → Prop where
  | none : Steps Q m m
  | next {m' m'' : RocksDBMap} {s : Step} : Steps Q m m' → Q m' s → m'.step s = .ok m'' → Steps Q m m''
  | throws {m' : RocksDBMap} {s : Step} {e : Failure} : Steps Q m m' → m'.step s = .error e → Steps Q m m'

/-- After the start the temporary table is empty, and no collector runs. -/
def Start (m : RocksDBMap) : Prop := m.tempHt = .empty ∧ m.iter = none

theorem Start.apart (start : m.Start) : m.Apart := by
  intro k there
  rw [start.1] at there
  cases there

theorem Steps.apart {Q : RocksDBMap → Step → Prop} (steps : Steps Q m m') (apart : m.Apart) : m'.Apart := by
  induction steps with
  | none => exact apart
  | next _ _ done ih => exact step_apart ih done
  | throws _ _ ih => exact ih

/-- The call gives the key references: its count is a `long` again, and in the temporary table above 0. -/
def Raises (m : RocksDBMap) (cm : ChunkData) : Prop :=
  match m.tempHt.get cm.hash with
  | some bk => 0 < bk.ct + claims cm.references ∧ bk.ct + claims cm.references < 2 ^ 63
  | none => max 0 (m.references cm.hash) + claims cm.references < 2 ^ 63

/-- No references to `k` are released, and its count does not pass the largest `long`. -/
def Step.Grows (k : Bytes) (m : RocksDBMap) : Step → Prop
  | .put cm _ => cm.hash = k → m.references k + claims cm.references < 2 ^ 63
  | .claimKey hash _ ct => hash = k → 0 ≤ ct ∧ m.references k + ct < 2 ^ 63
  | _ => True

theorem claims_pos (references : Int) : 0 < claims references := by
  unfold claims
  split <;> omega

theorem put_raises {cm : ChunkData} {stored : Option Int} {r : Bool × Int} (done : m.put cm stored = .ok (r, m'))
    (raises : m.Raises cm) : 0 < m'.references cm.hash := by
  have positive := claims_pos cm.references
  unfold put at done
  unfold Raises at raises
  split at done
  · cases done
  · split at done
    · rename_i bk temp
      rw [temp] at raises
      cases done
      unfold references
      rw [OrderedMap.get_put, if_pos rfl]
      dsimp only
      rw [long_eq (by omega) raises.2]
      exact raises.1
    · rename_i temp
      rw [temp] at raises
      split at done
      · split at done
        · cases done
        · cases done
          unfold references
          rw [OrderedMap.get_put, if_pos rfl]
          exact positive
      · rename_i v db
        have counted : m.references cm.hash = v.ct := by
          unfold references
          rw [temp, db]
        cases done
        unfold references
        dsimp only at raises ⊢
        rw [counted] at raises
        rw [temp, OrderedMap.get_put, if_pos rfl]
        dsimp only
        split <;> rw [long_eq (by omega) (by omega)] <;> omega

theorem Counted.references_other {hash : Bytes} (counted : Counted m hash m') (other : k ≠ hash) :
    m'.references k = m.references k := by
  cases counted with
  | none => rfl
  | temp r rmdb fresh =>
    unfold references
    rw [OrderedMap.get_put_other _ _ other]
  | db r rmdb alone =>
    unfold references
    rw [OrderedMap.get_put_other _ _ other]

theorem claimKey_grows {hash : Bytes} {val ct : Int} (counted : 0 < m.references hash) (more : 0 ≤ ct)
    (range : m.references hash + ct < 2 ^ 63) : 0 < (m.claimKey hash val ct).2.references hash := by
  unfold claimKey
  cases temp : m.tempHt.get hash with
  | some bk =>
    have count : m.references hash = bk.ct := by
      unfold references
      rw [temp]
    rw [count] at counted range
    dsimp only
    split
    · exact lt_of_lt_of_eq counted count.symm
    · unfold references
      rw [OrderedMap.get_put, if_pos rfl]
      dsimp only
      rw [long_eq (by omega) (by omega)]
      omega
  | none =>
    cases db : m.dbs.get hash with
    | none => exact counted
    | some v =>
      have count : m.references hash = v.ct := by
        unfold references
        rw [temp, db]
      rw [count] at counted range
      dsimp only
      split
      · exact lt_of_lt_of_eq counted count.symm
      · unfold references
        dsimp only
        rw [temp, OrderedMap.get_put, if_pos rfl]
        dsimp only
        rw [long_eq (by omega) (by omega)]
        omega

theorem step_grows (apart : m.Apart) (counted : 0 < m.references k) (grows : s.Grows k m) (done : m.step s = .ok m') :
    0 < m'.references k := by
  cases s with
  | put cm stored =>
    obtain ⟨r, given⟩ := put_of_step done
    by_cases same : k = cm.hash
    · subst same
      have range := grows rfl
      have positive := claims_pos cm.references
      refine put_raises given ?_
      unfold Raises
      cases temp : m.tempHt.get cm.hash with
      | some bk =>
        have count : m.references cm.hash = bk.ct := by
          unfold references
          rw [temp]
        rw [count] at counted range
        exact ⟨by omega, range⟩
      | none =>
        dsimp only
        omega
    · rw [(put_counted given).references_other same]
      exact counted
  | claimKey hash val ct =>
    cases done
    by_cases same : k = hash
    · subst same
      exact claimKey_grows counted (grows rfl).1 (grows rfl).2
    · rw [(claimKey_counted m hash val ct).references_other same]
      exact counted
  | hashBlobArchiveSync b =>
    rw [sync_references done]
    exact counted
  | startClaimRecords =>
    rw [startClaimRecords_eq done]
    exact counted
  | claimNext =>
    rcases claimNext_eq done with rfl | ⟨hash, bk, rest, -, rfl⟩
    · exact counted
    · have kept := (claimRecord_collected m hash bk).references apart counted
      exact lt_of_lt_of_eq counted kept.symm
  | tick millis =>
    cases done
    exact counted

theorem Steps.keeps {l : RocksDBMap} (steps : Steps (fun m s => s.Clear m ∧ s.Grows k m) l m) (apart : l.Apart)
    (counted : 0 < l.references k) : 0 < m.references k ∧ Keeps l m k := by
  induction steps with
  | none => exact ⟨counted, .quiet rfl (present_of_references counted)⟩
  | next before good done ih =>
    have between := before.apart apart
    exact ⟨step_grows between ih.1 good.2 done, ih.2.trans (step_keeps between done good.1 _ ih.1)⟩
  | throws _ _ ih => exact ih

/-- In every state of every run, a step removes no key that has references and deletes no chunk of one
if and only if it is not the turn of an overdue key that only the temporary table has, with references.
A key that `put` gives references stays, and so does its chunk, while no step is such a turn and no
references are released. -/
theorem collector_safe {start : RocksDBMap} (init : start.Start) (run : Steps (fun _ _ => True) start m) :
    (∀ s m', m.step s = .ok m' → (SafeStep m m' ↔ s.Clear m)) ∧
    (∀ cm stored r m₁ m₂, m.put cm stored = .ok (r, m₁) → m.Raises cm →
      Steps (fun m s => s.Clear m ∧ s.Grows cm.hash m) m₁ m₂ → Keeps m₁ m₂ cm.hash) := by
  have apart := run.apart init.apart
  refine ⟨fun s m' done => ⟨fun safe => ?_, step_keeps apart done⟩, fun cm stored r m₁ m₂ done raises steps => ?_⟩
  · by_contra hit
    exact step_deletes done hit safe
  · exact (steps.keeps ((put_counted done).apart apart) (put_raises done raises)).2

def fresh : RocksDBMap := ⟨false, .empty, .empty, .empty, none, 0, []⟩

theorem steps_of_foldlM {l : RocksDBMap} {steps : List Step} (before : Steps (fun _ _ => True) l m)
    (ran : steps.foldlM step m = .ok m') : Steps (fun _ _ => True) l m' := by
  induction steps generalizing m with
  | nil =>
    cases ran
    exact before
  | cons s steps ih =>
    rw [List.foldlM_cons] at ran
    cases done : m.step s with
    | error e =>
      rw [done] at ran
      cases ran
    | ok m₁ =>
      rw [done] at ran
      exact ih (.next before trivial done) ran

/-- The first of two released keys is synced and has been collected, the second was put again and comes next. -/
def scanned : List Step :=
  [.put ⟨[1], 1⟩ (some 7), .put ⟨[2], 1⟩ (some 8), .hashBlobArchiveSync [1], .claimKey [1] 7 (-1), .claimKey [2] 8 (-1),
    .put ⟨[2], 1⟩ (some 8), .tick 900001, .startClaimRecords, .claimNext]

theorem collector_safe_scanned : ∃ m, scanned.foldlM step fresh = .ok m ∧ m.mDeleted = [([1], 7)] ∧ m.references [2] = 1 ∧
    (∀ s m', m.step s = .ok m' → (SafeStep m m' ↔ s.Clear m)) ∧
    (∀ cm stored r m₁ m₂, m.put cm stored = .ok (r, m₁) → m.Raises cm →
      Steps (fun m s => s.Clear m ∧ s.Grows cm.hash m) m₁ m₂ → Keeps m₁ m₂ cm.hash) := by
  obtain ⟨m, ran, marked, counted⟩ :
      ∃ m, scanned.foldlM step fresh = .ok m ∧ m.mDeleted = [([1], 7)] ∧ m.references [2] = 1 :=
    ⟨_, rfl, by decide +kernel, by decide +kernel⟩
  exact ⟨m, ran, marked, counted, collector_safe ⟨rfl, rfl⟩ (steps_of_foldlM .none ran)⟩

/-- A chunk is released and put again before its archive is synced, and the collector deletes it. -/
def resurrected : List Step :=
  [.put ⟨[1], 1⟩ (some 7), .claimKey [1] 7 (-1), .put ⟨[1], 1⟩ (some 7), .tick 900001, .startClaimRecords]

theorem collector_deletes :
    ∃ m m', resurrected.foldlM step fresh = .ok m ∧ m.step .claimNext = .ok m' ∧ m.references [1] = 1 ∧
      m.mDeleted = [] ∧ m'.mDeleted = [([1], 7)] := by
  refine ⟨_, _, rfl, rfl, ?_, ?_, ?_⟩ <;> decide +kernel

end EncryptedDedup.SDFS.RocksDBMap
