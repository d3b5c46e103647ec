import EncryptedDedup.SDFS.CollectorSafety
import EncryptedDedup.Lib.Fallible
import Mathlib.Logic.Function.Basic

/-!
# The grace period of the collector

A key without references is removed some time after its last release. The collector goes by the deadline that its
iterator shows, which may be older than the one in the table.
-/

namespace EncryptedDedup.SDFS.RocksDBMap

variable {m m' : RocksDBMap} {k hash : Bytes} {bk : RemovalRecord} {t : Bytes → Option Int} {s : Step}

/-- For every key the time of the latest `claimKey` after which its count was zero or below. -/
def Step.released (s : Step) (m : RocksDBMap) (t : Bytes → Option Int) : Bytes → Option Int :=
  match s with
  | .claimKey hash val ct =>
    if (m.claimKey hash val ct).1 = true ∧ (m.claimKey hash val ct).2.references hash ≤ 0 then
      Function.update t hash (some m.now)
    else t
  | _ => t

/-- The deadline of a release is a `long`. -/
def Timed (m : RocksDBMap) : Prop := long (m.now + rmthreashold) = m.now + rmthreashold

/-- Steps one after another, with the times of the latest releases; a call that throws changes nothing. -/
inductive Timeline (m : RocksDBMap) (t : Bytes → Option Int) : RocksDBMap → (Bytes → Option Int) → Prop where
  | start : Timeline m t m t
  | step {m' m'' : RocksDBMap} {t' : Bytes → Option Int} (s : Step) : Timeline m t m' t' → m'.Timed →
    m'.step s = .ok m'' → Timeline m t m'' (s.released m' t')

def Touches (m m' : RocksDBMap) (k : Bytes) : Prop :=
  (∃ pos, m'.mDeleted = m.mDeleted ++ [(k, pos)]) ∨ (m.Present k ∧ ¬ m'.Present k)

/-- What is removed or marked was released for the last time more than `rmthreashold` ago. -/
def Graceful (m m' : RocksDBMap) (t : Bytes → Option Int) : Prop :=
  ∀ k, Touches m m' k → ∃ time, t k = some time ∧ time + rmthreashold < m.now

def Acts (m : RocksDBMap) (hash : Bytes) (bk : RemovalRecord) : Prop :=
  (m.rmdb.get hash).isSome ∧ bk.tm < m.now ∧ ∀ v, m.dbs.get hash = some v → v.ct ≤ 0 ∧ v.pos = bk.pos

/-- Where the collector acts on a key, the deadline in the table is over, and not only the one that the iterator shows. -/
def Step.Overdue (m : RocksDBMap) : Step → Prop
  | .claimNext => ∀ k bk rest r, m.iter = some ((k, bk) :: rest) → m.Acts k bk → m.rmdb.get k = some r → r.tm < m.now
  | _ => True

/-! ### Deadlines -/

/-- The deadlines in the table are those of the latest releases. -/
def Dues (m : RocksDBMap) (t : Bytes → Option Int) : Prop :=
  ∀ k r, m.rmdb.get k = some r → t k = some (r.tm - rmthreashold)

theorem Dues.fewer (dues : m.Dues t) (fewer : ∀ k r, m'.rmdb.get k = some r → m.rmdb.get k = some r) : m'.Dues t :=
  fun k r found => dues k r (fewer k r found)

theorem get_of_delete {rmdb : OrderedMap Bytes RemovalRecord} {r : RemovalRecord}
    (found : (rmdb.delete hash).get k = some r) : rmdb.get k = some r := by
  rw [OrderedMap.get_delete] at found
  split at found
  · cases found
  · exact found

theorem put_dues {cm : ChunkData} {stored : Option Int} {r : Bool × Int} (done : m.put cm stored = .ok (r, m'))
    (dues : m.Dues t) : m'.Dues t := by
  apply dues.fewer
  intro k r' found
  unfold put at done
  split at done
  · cases done
  · split at done
    · cases done
      exact found
    · split at done
      · split at done
        · cases done
        · cases done
          exact found
      · cases done
        dsimp only at found
        split at found
        · exact get_of_delete found
        · exact found

theorem dues_put {pos : Int} (timed : m.Timed) (dues : m.Dues t)
    (rmdb : m'.rmdb = m.rmdb.put hash ⟨pos, long (m.now + rmthreashold)⟩) :
    m'.Dues (Function.update t hash (some m.now)) := by
  intro k r found
  rw [rmdb, OrderedMap.get_put] at found
  by_cases same : k = hash
  · rw [if_pos same] at found
    obtain rfl := Option.some.inj found
    rw [same, Function.update_self]
    dsimp only
    rw [timed, Int.add_sub_cancel]
  · rw [if_neg same] at found
    rw [Function.update_of_ne same]
    exact dues k r found

theorem dues_delete {time : Option Int} (dues : m.Dues t) (rmdb : m'.rmdb = m.rmdb.delete hash) :
    m'.Dues (Function.update t hash time) := by
  intro k r found
  rw [rmdb, OrderedMap.get_delete] at found
  by_cases same : k = hash
  · rw [if_pos same] at found
    cases found
  · rw [if_neg same] at found
    rw [Function.update_of_ne same]
    exact dues k r found

/-- What a successful `claimKey` leaves: the key has a deadline only if its count is zero or below. -/
theorem claimKey_cases (m : RocksDBMap) (hash : Bytes) (val ct : Int) :
    m.claimKey hash val ct = (false, m) ∨
    ((m.claimKey hash val ct).1 = true ∧ (m.claimKey hash val ct).2.references hash ≤ 0 ∧
      ∃ pos, (m.claimKey hash val ct).2.rmdb = m.rmdb.put hash ⟨pos, long (m.now + rmthreashold)⟩) ∨
    ((m.claimKey hash val ct).1 = true ∧ (m.claimKey hash val ct).2.rmdb = m.rmdb.delete hash) := by
  unfold claimKey
  split
  · rename_i temp
    split
    · exact .inl rfl
    · dsimp only
      split
      · rename_i released
        refine .inr (.inl ⟨rfl, ?_, _, rfl⟩)
        unfold references
        dsimp only
        rw [OrderedMap.get_put_same]
        exact released
      · exact .inr (.inr ⟨rfl, rfl⟩)
  · rename_i temp
    split
    · rename_i v db
      split
      · exact .inl rfl
      · dsimp only
        split
        · rename_i released
          refine .inr (.inl ⟨rfl, ?_, _, rfl⟩)
          unfold references
          dsimp only
          rw [temp, OrderedMap.get_put_same]
          exact released.1
        · exact .inr (.inr ⟨rfl, rfl⟩)
    · exact .inl rfl

theorem claimKey_dues (timed : m.Timed) (dues : m.Dues t) (val ct : Int) :
    (m.claimKey hash val ct).2.Dues ((Step.claimKey hash val ct).released m t) := by
  unfold Step.released
  dsimp only
  rcases claimKey_cases m hash val ct with same | ⟨done, zero, pos, rmdb⟩ | ⟨done, rmdb⟩
  · rw [same, if_neg (by simp)]
    exact dues
  · rw [if_pos ⟨done, zero⟩]
    exact dues_put timed dues rmdb
  · split
    · exact dues_delete dues rmdb
    · apply dues.fewer
      intro k r found
      rw [rmdb] at found
      exact get_of_delete found

/-! ### The collector -/

theorem claimRecord_acts (acts : m.Acts hash bk) : (m.claimRecord hash bk).mDeleted = m.mDeleted ++ [(hash, bk.pos)] := by
  obtain ⟨waits, overdue, unused⟩ := acts
  obtain ⟨r, waiting⟩ := Option.isSome_iff_exists.mp waits
  unfold claimRecord
  rw [waiting]
  dsimp only
  rw [if_pos overdue]
  cases db : m.dbs.get hash with
  | none => rfl
  | some v =>
    dsimp only
    rw [if_pos (unused v db)]
    rfl

theorem claimRecord_idle (idle : ¬ m.Acts hash bk) : m.claimRecord hash bk = m ∨
    m.claimRecord hash bk = { m with rmdb := m.rmdb.delete hash } := by
  unfold claimRecord
  cases waiting : m.rmdb.get hash with
  | none => exact .inl rfl
  | some r =>
    dsimp only
    split
    · rename_i overdue
      cases db : m.dbs.get hash with
      | none =>
        refine absurd ⟨by rw [waiting]; rfl, overdue, fun v found => ?_⟩ idle
        rw [db] at found
        cases found
      | some v =>
        dsimp only
        split
        · rename_i unused
          refine absurd ⟨by rw [waiting]; rfl, overdue, fun w found => ?_⟩ idle
          rw [db] at found
          obtain rfl := Option.some.inj found
          exact unused
        · exact .inr rfl
    · exact .inl rfl

theorem Collected.get_rmdb (collected : Collected m hash bk m') {r : RemovalRecord} (found : m'.rmdb.get k = some r) :
    m.rmdb.get k = some r := by
  cases collected with
  | skip => exact found
  | forget => exact get_of_delete found
  | remove => exact get_of_delete found
  | delete => exact get_of_delete found

theorem Collected.present_other (collected : Collected m hash bk m') (other : k ≠ hash) (present : m.Present k) :
    m'.Present k := by
  cases collected with
  | skip => exact present
  | forget => exact present
  | remove =>
    unfold Present at present ⊢
    rw [OrderedMap.get_delete_other _ other]
    exact present
  | delete => exact present

theorem claimNext_cases (done : m.claimNext = .ok m') : (m.iter = some [] ∧ m' = { m with iter := none }) ∨
    ∃ hash bk rest, m.iter = some ((hash, bk) :: rest) ∧ m' = { m.claimRecord hash bk with iter := some rest } := by
  unfold claimNext at done
  split at done
  · cases done
  · rename_i ended
    exact .inl ⟨ended, (Except.ok.inj done).symm⟩
  · rename_i hash bk rest turn
    exact .inr ⟨hash, bk, rest, turn, (Except.ok.inj done).symm⟩

theorem step_dues (timed : m.Timed) (dues : m.Dues t) (done : m.step s = .ok m') : m'.Dues (s.released m t) := by
  cases s with
  | put cm stored =>
    obtain ⟨r, given⟩ := put_of_step done
    exact put_dues given dues
  | claimKey hash val ct =>
    cases done
    exact claimKey_dues timed dues val ct
  | hashBlobArchiveSync b =>
    rcases sync_moves done with rfl | ⟨bf, -, -, rfl⟩
    · exact dues
    · exact dues
  | startClaimRecords =>
    rw [startClaimRecords_eq done]
    exact dues
  | claimNext =>
    rcases claimNext_eq done with rfl | ⟨hash, bk, rest, -, rfl⟩
    · exact dues
    · exact dues.fewer fun k r found => (claimRecord_collected m hash bk).get_rmdb found
  | tick millis =>
    cases done
    exact dues

/-! ### Steps -/

theorem graceful_of_quiet (marks : m'.mDeleted = m.mDeleted) (present : ∀ k, m.Present k → m'.Present k) :
    Graceful m m' t := by
  intro k touched
  rcases touched with ⟨pos, marked⟩ | ⟨before, gone⟩
  · rw [marks] at marked
    rw [List.self_eq_append_right] at marked
    cases marked
  · exact absurd (present k before) gone

theorem Counted.graceful (counted : Counted m hash m') : Graceful m m' t := by
  apply graceful_of_quiet
  · cases counted <;> rfl
  · exact fun k present => (counted.keeps present).1

theorem claimRecord_graceful_iff {rest : List (Bytes × RemovalRecord)} (dues : m.Dues t) :
    Graceful m { m.claimRecord hash bk with iter := some rest } t ↔
      (m.Acts hash bk → ∀ r, m.rmdb.get hash = some r → r.tm < m.now) := by
  constructor
  · intro graceful acts r waiting
    obtain ⟨time, released, late⟩ := graceful hash (.inl ⟨bk.pos, claimRecord_acts acts⟩)
    rw [dues hash r waiting] at released
    obtain rfl := Option.some.inj released
    omega
  · intro overdue
    by_cases acts : m.Acts hash bk
    · intro k touched
      have same : k = hash := by
        by_contra other
        rcases touched with ⟨pos, marked⟩ | ⟨before, gone⟩
        · have marks := marked.symm.trans (claimRecord_acts acts)
          have pair := List.cons.inj (List.append_cancel_left marks)
          exact other (congrArg Prod.fst pair.1)
        · exact gone ((claimRecord_collected m hash bk).present_other other before)
      obtain ⟨r, waiting⟩ := Option.isSome_iff_exists.mp acts.1
      have past := overdue acts r waiting
      subst same
      exact ⟨_, dues k r waiting, by omega⟩
    · rcases claimRecord_idle acts with same | same
      · rw [same]
        exact graceful_of_quiet rfl fun k present => present
      · rw [same]
        exact graceful_of_quiet rfl fun k present => present

theorem step_graceful_iff (dues : m.Dues t) (done : m.step s = .ok m') : Graceful m m' t ↔ s.Overdue m := by
  cases s with
  | put cm stored =>
    obtain ⟨r, given⟩ := put_of_step done
    exact iff_of_true (put_counted given).graceful trivial
  | claimKey hash val ct =>
    cases done
    exact iff_of_true (claimKey_counted m hash val ct).graceful trivial
  | hashBlobArchiveSync b =>
    refine iff_of_true (graceful_of_quiet ?_ fun k present => (sync_keeps done present).1) trivial
    rcases sync_moves done with rfl | ⟨bf, -, -, rfl⟩
    · rfl
    · rfl
  | startClaimRecords =>
    rw [startClaimRecords_eq done]
    exact iff_of_true (graceful_of_quiet rfl fun k present => present) trivial
  | claimNext =>
    unfold Step.Overdue
    dsimp only
    rcases claimNext_cases done with ⟨ended, rfl⟩ | ⟨hash, bk, rest, turn, rfl⟩
    · refine iff_of_true (graceful_of_quiet rfl fun k present => present) ?_
      intro k bk rest r turn
      rw [ended] at turn
      cases turn
    · rw [claimRecord_graceful_iff dues]
      constructor
      · intro overdue k bk' rest' r turn' acts waiting
        rw [turn] at turn'
        cases turn'
        exact overdue acts r waiting
      · intro overdue acts r waiting
        exact overdue hash bk rest r turn acts waiting
  | tick millis =>
    cases done
    exact iff_of_true (graceful_of_quiet rfl fun k present => present) trivial

/-! ### Runs -/

theorem Timeline.dues {t' : Bytes → Option Int} (run : Timeline m t m' t') (start : m.Dues t) : m'.Dues t' := by
  induction run with
  | start => exact start
  | step s _ timed done ih => exact step_dues timed ih done

/-- In every state of every run a step removes or marks only what was released more than `rmthreashold` ago if and
only if, where the collector acts on a key, the deadline in the table is over as well. -/
theorem grace_iff {start : RocksDBMap} {t₀ : Bytes → Option Int} (init : start.Dues t₀) (run : Timeline start t₀ m t) :
    ∀ s m', m.step s = .ok m' → (Graceful m m' t ↔ s.Overdue m) :=
  fun _ _ done => step_graceful_iff (run.dues init) done

def releasedTwice : List Step :=
  [.put ⟨[1], 1⟩ (some 7), .hashBlobArchiveSync [1], .claimKey [1] 7 (-1), .tick 900001, .startClaimRecords,
    .put ⟨[1], 1⟩ none, .claimKey [1] 7 (-1)]

def follow (x : RocksDBMap × (Bytes → Option Int)) (s : Step) : Option (RocksDBMap × (Bytes → Option Int)) :=
  if long (x.1.now + rmthreashold) = x.1.now + rmthreashold then
    (x.1.step s).toOption.map fun m' => (m', s.released x.1 x.2)
  else none

theorem timeline_of_follow {steps : List Step} {x : RocksDBMap × (Bytes → Option Int)}
    (ran : steps.foldlM follow (m, t) = some x) : Timeline m t x.1 x.2 := by
  have keeps : ∀ (x x' : RocksDBMap × (Bytes → Option Int)) (s : Step), follow x s = some x' →
      Timeline m t x.1 x.2 → Timeline m t x'.1 x'.2 := by
    intro x x' s stepped before
    unfold follow at stepped
    split at stepped
    · rename_i timed
      obtain ⟨m', done, rfl⟩ := Option.map_eq_some_iff.mp stepped
      cases result : x.1.step s with
      | error e =>
        rw [result] at done
        cases done
      | ok m'' =>
        rw [result] at done
        cases done
        exact .step s before timed result
    · cases stepped
  exact foldlM_keep keeps ran .start

theorem grace_iff_releasedTwice : ∃ m t m', releasedTwice.foldlM follow (fresh, fun _ => none) = some (m, t) ∧
    m.iter.isSome ∧ t [1] = some 900001 ∧ m.step .claimNext = .ok m' ∧ (Graceful m m' t ↔ Step.Overdue m .claimNext) := by
  have init : fresh.Dues fun _ => none := by
    intro k r found
    cases found
  obtain ⟨⟨m, t⟩, ran, collects, time, m', stepped⟩ :
      ∃ x, releasedTwice.foldlM follow (fresh, fun _ => none) = some x ∧ x.1.iter.isSome ∧ x.2 [1] = some 900001 ∧
        ∃ m', x.1.step .claimNext = .ok m' :=
    ⟨_, rfl, by decide +kernel, by decide +kernel, _, rfl⟩
  exact ⟨m, t, m', ran, collects, time, stepped, grace_iff init (timeline_of_follow ran) _ _ stepped⟩

/-- The collector goes by the first release, and removes the key right after the second one. -/
theorem releasedTwice_removed : ∃ m t m', Timeline fresh (fun _ => none) m t ∧ m.step .claimNext = .ok m' ∧
    t [1] = some 900001 ∧ m.now = 900001 ∧ m'.mDeleted = [([1], 7)] ∧ ¬ m'.Present [1] ∧ ¬ Graceful m m' t := by
  obtain ⟨⟨m, t⟩, ran, time, now, unmarked, m', stepped, marked, temp, db⟩ :
      ∃ x, releasedTwice.foldlM follow (fresh, fun _ => none) = some x ∧ x.2 [1] = some 900001 ∧ x.1.now = 900001 ∧
        x.1.mDeleted = [] ∧ ∃ m', x.1.step .claimNext = .ok m' ∧ m'.mDeleted = [([1], 7)] ∧
          m'.tempHt.get [1] = none ∧ m'.dbs.get [1] = none := by
    refine ⟨_, rfl, ?_, ?_, ?_, _, rfl, ?_, ?_, ?_⟩ <;> decide +kernel
  refine ⟨m, t, m', timeline_of_follow ran, stepped, time, now, marked, ?_, fun graceful => ?_⟩
  · unfold Present
    rw [temp, db]
    simp
  · obtain ⟨time', released, late⟩ := graceful [1] (.inl ⟨7, by rw [marked, unmarked]; rfl⟩)
    cases time.symm.trans released
    dsimp only at now
    rw [now] at late
    exact absurd late (by decide)

end EncryptedDedup.SDFS.RocksDBMap
