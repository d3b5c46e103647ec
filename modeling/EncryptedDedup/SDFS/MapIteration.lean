import EncryptedDedup.SDFS.MapRun
import Mathlib.Data.List.Sort

/-!
# Iteration over a map

`nextValue` and `nextKeyValue` list the records that `get` returns. `nextKey` passes over every second slot, and
takes the end for an error when the file does not end where it stops.
-/

namespace EncryptedDedup.SDFS.LongByteArrayMap

variable (K : Config) (m : LongByteArrayMap)

/-- The positions of the chunks with a record, and the records. -/
structure Listed (ps : List Nat) (cks : List SparseDataChunk) : Prop where
  ascending : ps.Pairwise (· < ·)
  complete : ∀ p, p ∈ ps ↔ K.chunkLength.toNat ∣ p ∧ ∃ ck, get K m p = .ok (some ck)
  records : ps.map (get K m) = cks.map fun ck => .ok (some ck)

/-- A full pass of each iterator gives what is listed. `nbuf` may have been used before. -/
def Iterates : Prop :=
  ∃ ps cks, Listed K m ps cks ∧ Passes (nextKey K m) 0 ps ∧
    (∀ nbuf : Option Bytes, (∀ b, nbuf = some b → b.length = arrayLength K m.version) →
      Passes (nextValue K m) ⟨0, nbuf⟩ cks) ∧
    Passes (nextKeyValue K m) 0 (ps.zip cks)

/-- The file ends behind an even number of slots, and those with an odd number are free. -/
def OddFree : Prop :=
  (∃ n, m.db.length = slotPosition K m (2 * n)) ∧ ∀ i, get K m ((2 * i + 1) * K.chunkLength.toNat) = .ok none

variable {K m} {slots : Nat → Option SparseDataChunk}

def slotCount (K : Config) (m : LongByteArrayMap) : Nat :=
  (m.db.length - offset m.version + (arrayLength K m.version - 1)) / arrayLength K m.version

theorem inside_iff (usable : K.Usable) (i : Nat) : slotPosition K m i < m.db.length ↔ i < slotCount K m := by
  have positive := arrayLength_pos usable m.version
  unfold slotCount slotPosition
  rw [Nat.lt_div_iff_mul_lt positive]
  omega

/-! ### What is listed -/

def held (slots : Nat → Option SparseDataChunk) (is : List Nat) : List Nat := is.filter fun i => (slots i).isSome

def positions (K : Config) (slots : Nat → Option SparseDataChunk) (is : List Nat) : List Nat :=
  (held slots is).map fun i => i * K.chunkLength.toNat

theorem map_get (holds : Holds K m slots) (usable : K.Usable) (is : List Nat) :
    (positions K slots is).map (get K m) = (is.filterMap slots).map fun ck => .ok (some ck) := by
  unfold positions
  induction is with
  | nil => rfl
  | cons i is ih =>
    cases there : slots i with
    | none =>
      rw [List.filterMap_cons_none there, held, List.filter_cons_of_neg (by simp [there])]
      exact ih
    | some ck =>
      rw [List.filterMap_cons_some there, held, List.filter_cons_of_pos (by simp [there]), List.map_cons, List.map_cons,
        List.map_cons, get_slot holds usable, there]
      exact congrArg _ ih

theorem mem_positions (holds : Holds K m slots) (usable : K.Usable) {is : List Nat} {p : Nat} :
    p ∈ positions K slots is ↔ K.chunkLength.toNat ∣ p ∧ p / K.chunkLength.toNat ∈ is ∧ ∃ ck, get K m p = .ok (some ck) := by
  have positive := chunk_pos usable
  unfold positions held
  rw [List.mem_map]
  constructor
  · rintro ⟨i, member, rfl⟩
    obtain ⟨listed, there⟩ := List.mem_filter.mp member
    obtain ⟨ck, stored⟩ := Option.isSome_iff_exists.mp there
    rw [get_slot holds usable, Nat.mul_div_cancel i positive, stored]
    exact ⟨Nat.dvd_mul_left _ _, listed, ck, rfl⟩
  · rintro ⟨⟨i, rfl⟩, listed, ck, stored⟩
    rw [Nat.mul_div_cancel_left i positive] at listed
    rw [Nat.mul_comm, get_slot holds usable] at stored
    refine ⟨i, List.mem_filter.mpr ⟨listed, ?_⟩, Nat.mul_comm _ _⟩
    rw [Except.ok.inj stored]
    rfl

theorem positions_ascending (usable : K.Usable) {is : List Nat} (ascending : is.Pairwise (· < ·)) :
    (positions K slots is).Pairwise (· < ·) := by
  unfold positions held
  rw [List.pairwise_map]
  exact (ascending.filter _).imp fun less => Nat.mul_lt_mul_of_pos_right less (chunk_pos usable)

theorem slots_inside (holds : Holds K m slots) (usable : K.Usable) {i : Nat} {ck : SparseDataChunk}
    (stored : slots i = some ck) : i < slotCount K m := by
  rw [← inside_iff usable]
  by_contra behind
  rw [holds.outside i (Nat.not_lt.mp behind)] at stored
  cases stored

theorem listed (holds : Holds K m slots) (usable : K.Usable) :
    Listed K m (positions K slots (List.range' 0 (slotCount K m))) ((List.range' 0 (slotCount K m)).filterMap slots) := by
  refine ⟨positions_ascending usable List.pairwise_lt_range', fun p => ?_, map_get holds usable _⟩
  rw [mem_positions holds usable]
  constructor
  · exact fun ⟨aligned, _, stored⟩ => ⟨aligned, stored⟩
  · rintro ⟨aligned, ck, stored⟩
    refine ⟨aligned, ?_, ck, stored⟩
    rw [holds.get usable] at stored
    exact List.mem_range'_1.mpr ⟨Nat.zero_le _, by simpa using slots_inside holds usable (Except.ok.inj stored)⟩

/-! ### The passes -/

theorem slotCount_le (usable : K.Usable) : slotCount K m ≤ m.db.length := by
  by_contra more
  have inside := (inside_iff (m := m) usable m.db.length).mpr (Nat.not_le.mp more)
  have wide := Nat.le_mul_of_pos_right m.db.length (arrayLength_pos usable m.version)
  unfold slotPosition at inside
  omega

theorem find_keyValues (holds : Holds K m slots) (usable : K.Usable) {is : List Nat}
    (inside : ∀ i ∈ is, i < slotCount K m) :
    (is.filterMap (keyValueCursor K m).find).map (fun p => keyValue K m p.1 p.2) =
      ((positions K slots is).zip (is.filterMap slots)).map .ok := by
  unfold positions held
  induction is with
  | nil => rfl
  | cons i is ih =>
    obtain ⟨here, rest⟩ := List.forall_mem_cons.mp inside
    rcases holds.readSlot ((inside_iff usable i).mpr here) (length_zeros _) with ⟨empty, blank⟩ | ⟨ck, there, taken, decodes⟩
    · have passed : (keyValueCursor K m).find i = none := if_pos blank
      rw [List.filterMap_cons_none passed, List.filterMap_cons_none empty, List.filter_cons_of_neg (by simp [empty])]
      exact ih rest
    · have found : (keyValueCursor K m).find i = some (i, readSlot K m (free K m.version) i) := if_neg taken
      have made : keyValue K m i (readSlot K m (free K m.version) i) = .ok (i * K.chunkLength.toNat, ck) := by
        rw [keyValue]
        exact congrArg (· >>= _) decodes
      rw [List.filterMap_cons_some found, List.filterMap_cons_some there, List.filter_cons_of_pos (by simp [there]),
        List.map_cons, List.map_cons, List.zip_cons_cons, List.map_cons, made]
      exact congrArg _ (ih rest)

theorem nextKeyValue_passes (holds : Holds K m slots) (usable : K.Usable) :
    Passes (nextKeyValue K m) 0
      ((positions K slots (List.range' 0 (slotCount K m))).zip ((List.range' 0 (slotCount K m)).filterMap slots)) := by
  obtain ⟨ss, t, walk, visited, -, -⟩ := Cursor.exists_walk (C := keyValueCursor K m) id (fun _ => True) 1
    (slotCount K m) 0 (fun i _ => (decide_eq_true_iff).trans (inside_iff usable i)) (fun _ _ => rfl) (fun _ _ => trivial) trivial
    (fun j less => by simpa using less) (by simp)
  rw [List.map_id] at visited
  subst visited
  unfold nextKeyValue
  rw [Cursor.passes_iff walk (by rw [List.length_range']; exact slotCount_le usable)]
  refine ⟨find_keyValues holds usable fun i member => ?_, rfl⟩
  have below := (List.mem_range'_1.mp member).2
  simpa using below

/-- The buffer of an iterator has the length of a slot. -/
def ValueIter.Wide (K : Config) (m : LongByteArrayMap) (it : ValueIter) : Prop :=
  ∀ b, it.nbuf = some b → b.length = arrayLength K m.version

theorem ValueIter.Wide.buffer {it : ValueIter} (wide : it.Wide K m) :
    (it.nbuf.getD (free K m.version)).length = arrayLength K m.version := by
  cases buffer : it.nbuf with
  | none => exact length_zeros _
  | some b => exact wide b buffer

theorem find_values (holds : Holds K m slots) (usable : K.Usable) {its : List ValueIter}
    (inside : ∀ i ∈ its.map ValueIter.iterPos, i < slotCount K m) (wide : ∀ it ∈ its, it.Wide K m) :
    (its.filterMap (valueCursor K m).find).map (fun val => SparseDataChunk.ofBytes K val m.version) =
      ((its.map ValueIter.iterPos).filterMap slots).map .ok := by
  induction its with
  | nil => rfl
  | cons it its ih =>
    obtain ⟨here, rest⟩ := List.forall_mem_cons.mp inside
    obtain ⟨wideHere, wideRest⟩ := List.forall_mem_cons.mp wide
    rw [List.map_cons]
    rcases holds.readSlot ((inside_iff usable it.iterPos).mpr here) wideHere.buffer with
      ⟨empty, blank⟩ | ⟨ck, there, taken, decodes⟩
    · have passed : (valueCursor K m).find it = none := if_pos blank
      rw [List.filterMap_cons_none passed, List.filterMap_cons_none empty]
      exact ih rest wideRest
    · have found : (valueCursor K m).find it = some (it.filled K m) := if_neg taken
      rw [List.filterMap_cons_some found, List.filterMap_cons_some there, List.map_cons, List.map_cons, ValueIter.filled,
        decodes]
      exact congrArg _ (ih rest wideRest)

theorem nextValue_passes (holds : Holds K m slots) (usable : K.Usable) {nbuf : Option Bytes}
    (wide : ∀ b, nbuf = some b → b.length = arrayLength K m.version) :
    Passes (nextValue K m) ⟨0, nbuf⟩ ((List.range' 0 (slotCount K m)).filterMap slots) := by
  have keeps : ∀ it : ValueIter, it.Wide K m → ((valueCursor K m).advance it).Wide K m := by
    intro it wide b same
    rw [← Option.some.inj same, ValueIter.filled, readSlot, length_readInto, wide.buffer]
  have start : ValueIter.Wide K m ⟨0, nbuf⟩ := wide
  obtain ⟨ss, t, walk, visited, -, wides⟩ := Cursor.exists_walk (C := valueCursor K m) ValueIter.iterPos
    (ValueIter.Wide K m) 1 (slotCount K m) ⟨0, nbuf⟩ (fun it _ => (decide_eq_true_iff).trans (inside_iff usable it.iterPos)) (fun _ _ => rfl) keeps start
    (fun j less => by simpa using less) (by simp)
  have length : ss.length = slotCount K m := by
    rw [← List.length_map ValueIter.iterPos, visited, List.length_range']
  unfold nextValue
  rw [Cursor.passes_iff walk (by rw [length]; exact slotCount_le usable)]
  rw [← visited]
  refine ⟨find_values holds usable (fun i member => ?_) wides, rfl⟩
  rw [visited] at member
  have below := (List.mem_range'_1.mp member).2
  simpa using below

theorem find_keys (holds : Holds K m slots) (usable : K.Usable) (is : List Nat) (inside : ∀ i ∈ is, i < slotCount K m) :
    is.filterMap (keyCursor K m).find = positions K slots is := by
  unfold positions held
  induction is with
  | nil => rfl
  | cons i is ih =>
    obtain ⟨here, rest⟩ := List.forall_mem_cons.mp inside
    rcases holds.readSlot ((inside_iff usable i).mpr here) (length_zeros _) with ⟨empty, blank⟩ | ⟨ck, there, taken, -⟩
    · have passed : (keyCursor K m).find i = none := if_pos blank
      rw [List.filterMap_cons_none passed, List.filter_cons_of_neg (by simp [empty])]
      exact ih rest
    · have found : (keyCursor K m).find i = some (i * K.chunkLength.toNat) := if_neg taken
      rw [List.filterMap_cons_some found, List.filter_cons_of_pos (by simp [there]), List.map_cons, ih rest]

def visitedSlots (K : Config) (m : LongByteArrayMap) : List Nat := List.range' 0 ((slotCount K m + 1) / 2) 2

theorem mem_visitedSlots {i : Nat} : i ∈ visitedSlots K m ↔ i < slotCount K m ∧ 2 ∣ i := by
  unfold visitedSlots
  rw [List.mem_range']
  constructor
  · rintro ⟨j, less, rfl⟩
    exact ⟨by omega, ⟨j, by omega⟩⟩
  · rintro ⟨less, ⟨j, rfl⟩⟩
    exact ⟨j, by omega, by omega⟩

theorem nextKey_passes_iff (holds : Holds K m slots) (usable : K.Usable) (ps : List Nat) :
    Passes (nextKey K m) 0 ps ↔
      ps = positions K slots (visitedSlots K m) ∧ m.db.length = slotPosition K m (2 * ((slotCount K m + 1) / 2)) := by
  obtain ⟨ss, t, walk, visited, final, -⟩ := Cursor.exists_walk (C := keyCursor K m) id (fun _ => True) 2
    ((slotCount K m + 1) / 2) 0 (fun i _ => (decide_eq_true_iff).trans (inside_iff usable i)) (fun _ _ => rfl) (fun _ _ => trivial) trivial
    (fun j less => by simp only [id_eq]; omega) (by simp only [id_eq]; omega)
  rw [List.map_id] at visited
  have target : t = 2 * ((slotCount K m + 1) / 2) := by
    simp only [id_eq] at final
    omega
  have few := slotCount_le (m := m) usable
  have enough : ss.length ≤ m.db.length := by
    rw [visited, List.length_range']
    omega
  unfold nextKey
  rw [Cursor.passes_iff walk enough, visited, target]
  have shown := find_keys holds usable (visitedSlots K m) fun i member => (mem_visitedSlots.mp member).1
  unfold visitedSlots at shown ⊢
  simp only [id_eq]
  rw [shown, List.map_inj_right fun _ _ => Except.ok.inj]
  constructor
  · rintro ⟨same, ended⟩
    refine ⟨same.symm, ?_⟩
    by_contra differs
    rw [if_pos (Ne.symm differs)] at ended
    cases ended
  · rintro ⟨same, ended⟩
    exact ⟨same.symm, if_neg fun differs => differs ended.symm⟩

theorem slotCount_of_length (usable : K.Usable) {n : Nat} (length : m.db.length = slotPosition K m n) :
    slotCount K m = n := by
  have positive := arrayLength_pos usable m.version
  have grow : ∀ i, slotPosition K m i < slotPosition K m n ↔ i < n := by
    intro i
    unfold slotPosition
    rw [Nat.add_lt_add_iff_right, Nat.mul_lt_mul_right positive]
  have bound : ∀ i, i < slotCount K m ↔ i < n := by
    intro i
    rw [← inside_iff usable, length, grow]
  have low := bound n
  have high := bound (slotCount K m)
  omega

theorem iterates_iff_oddFree (holds : Holds K m slots) (usable : K.Usable) : Iterates K m ↔ OddFree K m := by
  have list := listed holds usable
  constructor
  · rintro ⟨ps, cks, other, keys, -, -⟩
    obtain ⟨shown, length⟩ := (nextKey_passes_iff holds usable ps).mp keys
    refine ⟨⟨_, length⟩, fun i => ?_⟩
    rw [get_slot holds usable]
    cases stored : slots (2 * i + 1) with
    | none => rfl
    | some ck =>
      have found : (2 * i + 1) * K.chunkLength.toNat ∈ ps := by
        rw [other.complete, get_slot holds usable, stored]
        exact ⟨Nat.dvd_mul_left _ _, ck, rfl⟩
      rw [shown, mem_positions holds usable, Nat.mul_div_cancel _ (chunk_pos usable), mem_visitedSlots] at found
      have even := found.2.1.2
      omega
  · rintro ⟨⟨n, length⟩, odd⟩
    have count := slotCount_of_length usable length
    refine ⟨_, _, list, (nextKey_passes_iff holds usable _).mpr ⟨?_, ?_⟩,
      fun nbuf wide => nextValue_passes holds usable wide, nextKeyValue_passes holds usable⟩
    · have ascending : (visitedSlots K m).Pairwise (· < ·) := by
        unfold visitedSlots
        exact List.pairwise_lt_range' 2
      refine List.Pairwise.eq_of_mem_iff list.ascending (positions_ascending usable ascending) fun p => ?_
      rw [list.complete, mem_positions holds usable, mem_visitedSlots]
      constructor
      · rintro ⟨aligned, ck, stored⟩
        have slot := stored
        rw [holds.get usable] at slot
        refine ⟨aligned, ⟨slots_inside holds usable (Except.ok.inj slot), ?_⟩, ck, stored⟩
        by_contra uneven
        have empty := odd (p / K.chunkLength.toNat / 2)
        have number : 2 * (p / K.chunkLength.toNat / 2) + 1 = p / K.chunkLength.toNat := by omega
        rw [number, Nat.div_mul_cancel aligned, stored] at empty
        cases empty
      · rintro ⟨aligned, -, stored⟩
        exact ⟨aligned, stored⟩
    · rw [count, length]
      congr 1
      omega

theorem iterates_iff (usable : K.Usable) {version : UInt8} (reached : Reached K version m) :
    Iterates K m ↔ OddFree K m := by
  obtain ⟨-, slots, holds⟩ := reached_holds usable reached
  exact iterates_iff_oddFree holds usable

def twoChunks : LongByteArrayMap :=
  step ⟨16384, 16, 4, 4095⟩ (step ⟨16384, 16, 4, 4095⟩ (create 2) (.put 0 (SparseDataChunk.oneEntry false)))
    (.put 16384 (SparseDataChunk.oneEntry false))

theorem twoChunks_reached : Reached ⟨16384, 16, 4, 4095⟩ 2 twoChunks :=
  .step (.step (.create (by decide)) ⟨rfl, SparseDataChunk.oneEntry_typed false⟩) ⟨rfl, SparseDataChunk.oneEntry_typed false⟩

theorem iterates_iff_twoChunks : Iterates ⟨16384, 16, 4, 4095⟩ twoChunks ↔ OddFree ⟨16384, 16, 4, 4095⟩ twoChunks :=
  iterates_iff usable_small twoChunks_reached

/-- `nextKey` does not come to the second chunk. -/
theorem twoChunks_not_iterated :
    Reached ⟨16384, 16, 4, 4095⟩ 2 twoChunks ∧ ¬ Iterates ⟨16384, 16, 4, 4095⟩ twoChunks := by
  refine ⟨twoChunks_reached, fun iterates => ?_⟩
  obtain ⟨-, slots, holds⟩ := reached_holds usable_small twoChunks_reached
  obtain ⟨-, odd⟩ := (iterates_iff_oddFree holds usable_small).mp iterates
  have second := odd 0
  have there : ((get ⟨16384, 16, 4, 4095⟩ twoChunks 16384).toOption.bind id).isSome = true := by decide +kernel
  rw [show (2 * 0 + 1) * (⟨16384, 16, 4, 4095⟩ : Config).chunkLength.toNat = 16384 from rfl] at second
  rw [second] at there
  cases there

end EncryptedDedup.SDFS.LongByteArrayMap
