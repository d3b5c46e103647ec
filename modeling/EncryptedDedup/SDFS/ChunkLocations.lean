import EncryptedDedup.SDFS.ChunkStore

/-!
# Where the map has a chunk

A key gets its location when it is put, and keeps it until the collector removes it.
-/

namespace EncryptedDedup.SDFS.RocksDBMap

variable {m m' : RocksDBMap} {k hash : Bytes} {pos : Int}

def location (m : RocksDBMap) (k : Bytes) : Option Int := ((m.tempHt.get k).or (m.dbs.get k)).map CountRecord.pos

theorem location_isSome : (m.location k).isSome ↔ m.Present k := by
  unfold location Present
  cases m.tempHt.get k <;> cases m.dbs.get k <;> simp

theorem get_eq_location : m.get k = (m.location k).getD (-1) := by
  unfold get location
  cases m.tempHt.get k <;> cases m.dbs.get k <;> rfl

theorem mightContainKey_eq_location : m.mightContainKey k pos = true ↔
    ∃ p, m.location k = some p ∧ (p = pos ∨ pos = -1) := by
  unfold mightContainKey location
  cases (m.tempHt.get k).or (m.dbs.get k) with
  | none => simp
  | some r =>
    simp only [Option.map_some, Option.some.injEq, exists_eq_left', Bool.not_eq_true', Bool.and_eq_false_iff,
      decide_eq_false_iff_not, not_not]

theorem Counted.location_other (counted : Counted m hash m') (other : k ≠ hash) : m'.location k = m.location k := by
  cases counted with
  | none => rfl
  | temp r rmdb fresh =>
    unfold location
    rw [OrderedMap.get_put_other _ _ other]
  | db r rmdb alone =>
    unfold location
    rw [OrderedMap.get_put_other _ _ other]

/-! ### Puts -/

theorem put_known {cm : ChunkData} {r : Bool × Int} (done : m.put cm none = .ok (r, m')) (k : Bytes) :
    m'.location k = m.location k := by
  by_cases same : k = cm.hash
  · subst same
    unfold put at done
    split at done
    · cases done
    · split at done
      · rename_i bk temp
        cases done
        simp [location, temp]
      · rename_i temp
        split at done
        · cases done
        · rename_i v db
          cases done
          simp [location, temp, db]
  · exact (put_counted done).location_other same

theorem put_persist {cm : ChunkData} (missing : m.put cm none = .error .persist) : m.location cm.hash = none := by
  unfold put at missing
  split at missing
  · cases missing
  · split at missing
    · cases missing
    · rename_i temp
      split at missing
      · rename_i db
        simp [location, temp, db]
      · cases missing

theorem put_new {cm : ChunkData} {r : Bool × Int} (absent : m.location cm.hash = none)
    (done : m.put cm (some pos) = .ok (r, m')) : m'.location cm.hash = some pos := by
  have tables : m.tempHt.get cm.hash = none ∧ m.dbs.get cm.hash = none := by
    unfold location at absent
    cases temp : m.tempHt.get cm.hash with
    | some bk =>
      rw [temp] at absent
      cases absent
    | none =>
      rw [temp] at absent
      exact ⟨rfl, by simpa using absent⟩
  obtain ⟨temp, db⟩ := tables
  unfold put at done
  split at done
  · cases done
  · rw [temp] at done
    dsimp only at done
    rw [db] at done
    cases done
    simp [location]

/-! ### Other steps -/

theorem claimKey_location (m : RocksDBMap) (hash : Bytes) (val ct : Int) (k : Bytes) :
    (m.claimKey hash val ct).2.location k = m.location k := by
  by_cases same : k = hash
  · subst same
    unfold claimKey
    split
    · rename_i bk temp
      split
      · rfl
      · simp [location, temp]
    · rename_i temp
      split
      · rename_i v db
        split
        · rfl
        · simp [location, temp, db]
      · rfl
  · exact (claimKey_counted m hash val ct).location_other same

theorem sync_location {b : Bytes} (done : m.hashBlobArchiveSync b = .ok m') (k : Bytes) : m'.location k = m.location k := by
  rcases sync_moves done with rfl | ⟨bf, temp, db, rfl⟩
  · rfl
  · unfold location
    dsimp only
    rw [OrderedMap.get_put, OrderedMap.get_delete]
    split
    · rename_i same
      rw [same, temp]
      rfl
    · rfl

theorem Collected.location {bk : RemovalRecord} (collected : Collected m hash bk m') (found : m'.location k = some pos) :
    m.location k = some pos := by
  cases collected with
  | skip => exact found
  | forget => exact found
  | remove v db unused =>
    unfold RocksDBMap.location at found ⊢
    dsimp only at found
    rw [OrderedMap.get_delete] at found
    split at found
    · rename_i same
      cases temp : m.tempHt.get k with
      | some r =>
        replace found : ((m.tempHt.get k).or none).map CountRecord.pos = some pos := found
        rw [temp] at found
        exact found
      | none =>
        replace found : ((m.tempHt.get k).or none).map CountRecord.pos = some pos := found
        rw [temp] at found
        cases found
    · exact found
  | delete => exact found

/-- Only `put` gives a key a location. -/
theorem step_location {s : Step} (done : m.step s = .ok m') (found : m'.location k = some pos) :
    m.location k = some pos ∨ ∃ cm stored, s = .put cm stored ∧ cm.hash = k := by
  cases s with
  | put cm stored =>
    obtain ⟨r, given⟩ := put_of_step done
    by_cases same : k = cm.hash
    · exact .inr ⟨cm, stored, rfl, same.symm⟩
    · rw [(put_counted given).location_other same] at found
      exact .inl found
  | claimKey hash val ct =>
    cases done
    rw [claimKey_location] at found
    exact .inl found
  | hashBlobArchiveSync b =>
    rw [sync_location done] at found
    exact .inl found
  | startClaimRecords =>
    rw [startClaimRecords_eq done] at found
    exact .inl found
  | claimNext =>
    rcases claimNext_eq done with rfl | ⟨hash, bk, rest, -, rfl⟩
    · exact .inl found
    · exact .inl ((claimRecord_collected m hash bk).location found)
  | tick millis =>
    cases done
    exact .inl found

end EncryptedDedup.SDFS.RocksDBMap
