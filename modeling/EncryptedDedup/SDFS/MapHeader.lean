import EncryptedDedup.SDFS.MapTruncate

/-!
# Maps that are opened again

`openFile` takes the version of a map from the first bytes of its file, and version 0 where these are not the
magic number.
-/

namespace EncryptedDedup.SDFS.LongByteArrayMap

def openFile (db : Bytes) : LongByteArrayMap :=
  let buf := readInto (zeros 3) db 0
  ⟨if slice buf 0 2 = [25, 42] then buf.getD 2 0 else 0, db⟩

/-- The file starts with the magic number and the version; from version 0 it does not start so. -/
def Headed (version : UInt8) (db : Bytes) : Prop :=
  if version = 0 then db[0]? ≠ some 25 else db[0]? = some 25 ∧ db[1]? = some 42 ∧ db[2]? = some version

variable {K : Config} {m : LongByteArrayMap} {version : UInt8} {db : Bytes}

theorem readInto_header (db : Bytes) : readInto (zeros 3) db 0 = [db.getD 0 0, db.getD 1 0, db.getD 2 0] := by
  match db with
  | [] | [_] | [_, _] => rfl
  | a :: b :: c :: rest => rw [readInto_whole (n := 3) rfl rfl]; rfl

theorem Headed.openFile (headed : Headed version db) : openFile db = ⟨version, db⟩ := by
  unfold LongByteArrayMap.openFile
  rw [readInto_header]
  unfold Headed at headed
  split at headed
  · rename_i first
    have other : db.getD 0 0 ≠ 25 := by
      cases there : db[0]? with
      | none =>
        rw [List.getD_eq_getElem?_getD, there]
        decide
      | some x =>
        rw [there] at headed
        rw [List.getD_eq_getElem?_getD, there]
        exact fun same => headed (congrArg some same)
    dsimp only
    rw [if_neg, first]
    exact fun same => other (List.cons.inj same).1
  · obtain ⟨magic, number, third⟩ := headed
    simp only [List.getD_eq_getElem?_getD, magic, number, third, Option.getD_some]
    rfl

theorem Headed.write (headed : Headed version db) {p : Nat} {w : Bytes} (behind : offset version ≤ p)
    (plain : version = 0 → w[0]? ≠ some 25) : Headed version (writeAt db p w) := by
  unfold Headed offset at *
  split at headed
  · rename_i first
    rw [if_pos first]
    rw [getElem?_writeAt]
    split
    · split
      · exact headed
      · decide
    · split
      · rename_i here _
        obtain rfl : p = 0 := by omega
        exact plain first
      · exact headed
  · rename_i later
    rw [if_neg later] at behind ⊢
    have far : 64 ≤ p := by
      split at behind
      · exact behind
      · omega
    have inside : ∀ {i x}, i < 3 → db[i]? = some x → (writeAt db p w)[i]? = some x := by
      intro i x less there
      rw [getElem?_writeAt, if_pos (by omega), if_pos (List.getElem?_eq_some_iff.mp there).1, there]
    exact ⟨inside (by omega) headed.1, inside (by omega) headed.2.1, inside (by omega) headed.2.2⟩

theorem Headed.take (headed : Headed version db) {p : Nat} (behind : offset version ≤ p) : Headed version (db.take p) := by
  unfold Headed offset at *
  split at headed
  · rename_i first
    rw [if_pos first, List.getElem?_take]
    split
    · exact headed
    · exact nofun
  · rename_i later
    rw [if_neg later] at behind ⊢
    have far : 64 ≤ p := by
      split at behind
      · exact behind
      · omega
    simp only [List.getElem?_take, if_pos (show 0 < p by omega), if_pos (show 1 < p by omega), if_pos (show 2 < p by omega)]
    exact headed

/-! ### Calls -/

theorem free_plain (K : Config) (version : UInt8) : (free K version)[0]? ≠ some 25 := by
  rw [free, zeros, List.getElem?_replicate]
  split
  · decide
  · decide

theorem getBytes_plain {c : SparseDataChunk} {raw : Bytes} (done : (c.getBytes K).2 = .ok raw) (first : c.version = 0) :
    raw[0]? ≠ some 25 := by
  unfold SparseDataChunk.getBytes at done
  rw [if_pos first] at done
  unfold SparseDataChunk.getBytes0 at done
  obtain ⟨buf, put, done⟩ := orThrow_bind_ok done
  obtain ⟨h, -, done⟩ := orThrow_bind_ok done
  obtain ⟨buf', filled, done⟩ := orThrow_bind_ok done
  obtain ⟨x, flag, small⟩ : ∃ x : UInt8, (if 0 < c.doop then 1 else 0) = x ∧ x ≠ 25 := by
    refine ⟨_, rfl, ?_⟩
    split <;> decide
  rw [flag, ByteBuffer.allocate_eq, ByteBuffer.put_written] at put
  split at put
  · obtain rfl := Option.some.inj put
    rw [ByteBuffer.putAll_written] at filled
    split at filled
    · obtain rfl := Option.some.inj filled
      obtain rfl := Except.ok.inj done
      rw [List.nil_append]
      unfold ByteBuffer.written
      dsimp only
      rw [List.append_assoc, List.cons_append, List.getElem?_cons_zero]
      exact fun same => small (Option.some.inj same)
    · cases filled
  · cases put

theorem trimLoop_headed (refCount : Bool) (n : Nat) {pos : Nat} (behind : offset m.version ≤ pos) (refs : List HashLocPair)
    (headed : Headed m.version m.db) :
    (trimLoop K refCount n pos m refs).1.version = m.version ∧
      Headed m.version (trimLoop K refCount n pos m refs).1.db := by
  induction n generalizing m pos refs with
  | zero => exact ⟨rfl, headed⟩
  | succ n ih =>
    have cleared : Headed m.version (writeAt m.db pos (free K m.version)) :=
      headed.write behind fun _ => free_plain K m.version
    have later : offset m.version ≤ pos + arrayLength K m.version := by omega
    have rest := fun refs => ih (m := { m with db := writeAt m.db pos (free K m.version) }) later refs cleared
    unfold trimLoop
    dsimp only
    split
    · split
      · exact rest _
      · exact ⟨rfl, headed⟩
    · exact rest _

theorem slotPosition_behind (m : LongByteArrayMap) (i : Nat) : offset m.version ≤ slotPosition K m i := Nat.le_add_left _ _

theorem step_headed (usable : K.Usable) {op : Op} (plain : op.Plain K m.version) (headed : Headed m.version m.db) :
    (step K m op).version = m.version ∧ Headed m.version (step K m op).db := by
  cases op with
  | put pos data =>
    unfold step
    dsimp only
    cases done : put K m pos data with
    | error e => exact ⟨rfl, headed⟩
    | ok m' =>
      unfold put at done
      obtain ⟨raw, encoded, done⟩ := bind_ok done
      obtain rfl := Except.ok.inj done
      exact ⟨rfl, headed.write (slotPosition_behind m _) fun first => getBytes_plain encoded (plain.1.trans first)⟩
  | remove pos => exact ⟨rfl, headed.write (slotPosition_behind m _) fun _ => free_plain K m.version⟩
  | trim refCount pos len =>
    unfold step trim
    dsimp only
    split
    · exact ⟨rfl, headed⟩
    · refine trimLoop_headed refCount _ ?_ [] headed
      have start : 0 ≤ ⌈Double.quotient (pos : Int) K.chunkLength⌉ :=
        Int.ceil_nonneg (Double.quotient_nonneg (Int.natCast_nonneg pos) usable.chunk.le)
      have slots := Int.mul_nonneg start (Int.natCast_nonneg (arrayLength K m.version))
      omega

theorem create_headed (version : UInt8) : Headed version (create version).db := by
  unfold Headed create
  split
  · exact nofun
  · exact ⟨rfl, rfl, rfl⟩

theorem made_headed (usable : K.Usable) (made : Made K version m) : m.version = version ∧ Headed version m.db := by
  induction made with
  | create _ => exact ⟨rfl, create_headed version⟩
  | step _ plain ih =>
    obtain ⟨rfl, headed⟩ := ih
    exact step_headed usable plain headed
  | truncate made returned ih =>
    obtain ⟨rfl, headed⟩ := ih
    obtain ⟨-, slots, holds⟩ := made_holds usable made
    rw [truncate_spec holds usable] at returned
    obtain ⟨cut, -⟩ := Prod.mk.inj (Outcome.finished.inj returned)
    obtain rfl := Except.ok.inj cut
    exact ⟨rfl, headed.take (slotPosition_behind _ _)⟩

theorem openFile_made (usable : K.Usable) (made : Made K version m) : openFile m.db = m := by
  obtain ⟨rfl, headed⟩ := made_headed usable made
  exact headed.openFile

end EncryptedDedup.SDFS.LongByteArrayMap
