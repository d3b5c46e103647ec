import EncryptedDedup.SingleStream.LocalityCount
import EncryptedDedup.Lib.Tally

/-!
# What `locality_count` stores

The databases represent tallies: the frequency of every chunk read, and for every chunk its
neighbours with their co-occurrence counts, as C strings. The run stops early exactly when a table
grows beyond what `int pos` can address.
-/

namespace EncryptedDedup.LocalityCount

/-! ### Packed tables -/

abbrev Table := List (Bytes × Nat)

def pack (t : Table) : Bytes := t.flatMap (fun e => e.1 ++ u64 e.2)

def packed (t : Table) : Option Bytes := if t = [] then none else some (pack t)

def Keyed (t : Table) : Prop := ∀ e ∈ t, e.1.length = fpSize

/-- The number of records that the search loop can walk over. -/
def recordLimit : Nat := intMax / recordSize + 1

@[simp] theorem pack_nil : pack [] = [] := rfl

@[simp] theorem pack_cons (e : Bytes × Nat) (t : Table) : pack (e :: t) = e.1 ++ u64 e.2 ++ pack t := by
  simp [pack]

@[simp] theorem pack_append (t t' : Table) : pack (t ++ t') = pack t ++ pack t' := by simp [pack]

theorem length_pack {t : Table} (keyed : Keyed t) : (pack t).length = t.length * recordSize := by
  induction t with
  | nil => rfl
  | cons e t ih =>
    have key := keyed e List.mem_cons_self
    rw [pack_cons, List.length_append, List.length_append, key, length_u64,
      ih fun x member => keyed x (List.mem_cons_of_mem _ member), List.length_cons, Nat.succ_mul,
      recordSize]
    omega

theorem packed_ne_nil {t : Table} (filled : t ≠ []) : packed t = some (pack t) := if_neg filled

def searchFrom (key : Bytes) : Nat → Table → Option (Option Nat)
  | _, [] => some none
  | i, e :: t =>
    if e.1 = key then some (some (i * recordSize))
    else if (i + 1) * recordSize ≤ intMax then searchFrom key (i + 1) t
    else none

theorem findRecord_pack (key : Bytes) (before after : Table) (keyed : Keyed (before ++ after))
    (fuel : Nat) (enough : after.length ≤ fuel) :
    findRecord (pack (before ++ after)) key fuel (before.length * recordSize) =
      searchFrom key before.length after := by
  have head : (pack before).length = before.length * recordSize :=
    length_pack fun x member => keyed x (List.mem_append_left _ member)
  induction after generalizing before fuel with
  | nil =>
    rw [List.append_nil]
    cases fuel with
    | zero => rfl
    | succ fuel =>
      rw [findRecord, if_neg (by omega)]
      rfl
  | cons e after ih =>
    obtain ⟨fuel, rfl⟩ : ∃ m, fuel = m + 1 := ⟨fuel - 1, by simp at enough; omega⟩
    have key_size : e.1.length = fpSize := keyed e (by simp)
    have inside : before.length * recordSize < (pack (before ++ e :: after)).length - 1 := by
      rw [length_pack keyed, List.length_append, List.length_cons, Nat.add_mul, Nat.succ_mul]
      simp only [recordSize, fpSize]
      omega
    have compared : ((pack (before ++ e :: after)).drop (before.length * recordSize)).take fpSize = e.1 := by
      rw [pack_append, ← head, List.drop_left, pack_cons, List.append_assoc, ← key_size, List.take_left]
    have next := ih (before ++ [e]) (by simpa using keyed) fuel (by simpa using enough)
      (length_pack fun x member => keyed x (by
        rcases List.mem_append.mp member with old | new
        · exact List.mem_append_left _ old
        · rw [List.mem_singleton.mp new]
          simp))
    rw [List.append_assoc, List.singleton_append, List.length_append, List.length_singleton] at next
    rw [findRecord, if_pos inside, compared, searchFrom,
      show before.length * recordSize + recordSize = (before.length + 1) * recordSize from
        (Nat.succ_mul _ _).symm, next]

theorem mul_recordSize_le {i : Nat} : i * recordSize ≤ intMax ↔ i < recordLimit := by
  simp only [recordSize, fpSize, intMax, recordLimit]
  omega

theorem searchFrom_found {key : Bytes} {n : Nat} (before after : Table)
    (fresh : key ∉ before.map Prod.fst) (i : Nat) (near : i + before.length < recordLimit) :
    searchFrom key i (before ++ (key, n) :: after) = some (some ((i + before.length) * recordSize)) := by
  induction before generalizing i with
  | nil => simp [searchFrom]
  | cons e before ih =>
    rw [List.map_cons, List.mem_cons, not_or] at fresh
    rw [List.length_cons] at near
    rw [List.cons_append, searchFrom, if_neg (Ne.symm fresh.1),
      if_pos (mul_recordSize_le.mpr (by omega)), ih fresh.2 (i + 1) (by omega), List.length_cons]
    congr 3
    omega

theorem searchFrom_missing {key : Bytes} (t : Table) (absent : key ∉ t.map Prod.fst) (i : Nat)
    (start : i < recordLimit) :
    searchFrom key i t = if i + t.length < recordLimit then some none else none := by
  induction t generalizing i with
  | nil => simp [searchFrom, start]
  | cons e t ih =>
    rw [List.map_cons, List.mem_cons, not_or] at absent
    rw [searchFrom, if_neg (Ne.symm absent.1), List.length_cons]
    by_cases near : i + 1 < recordLimit
    · rw [if_pos (mul_recordSize_le.mpr near), ih absent.2 (i + 1) near]
      congr 1
      simp only [eq_iff_iff]
      omega
    · rw [if_neg (mt mul_recordSize_le.mp near), if_neg (by omega)]

theorem findRecord_eq {t : Table} (keyed : Keyed t) (key : Bytes) :
    findRecord (pack t) key (pack t).length 0 = searchFrom key 0 t := by
  have enough : t.length ≤ (pack t).length := by
    rw [length_pack keyed]
    exact Nat.le_mul_of_pos_right _ (by decide)
  simpa using findRecord_pack key [] t keyed _ enough

theorem addNeighbour_packed {t : Table} {key : Bytes} (keyed : Keyed t) (size : key.length = fpSize)
    (fits : t.length ≤ recordLimit) :
    addNeighbour key (packed t) =
      if (bump key t).length ≤ recordLimit then some (pack (bump key t)) else none := by
  by_cases vacant : t = []
  · subst vacant
    simp [packed, addNeighbour, bump, recordLimit]
  rw [packed_ne_nil vacant, addNeighbour, findRecord_eq keyed]
  by_cases present : key ∈ t.map Prod.fst
  · obtain ⟨before, n, after, rfl, fresh⟩ := exists_first_entry present
    have near : 0 + before.length < recordLimit := by simp at fits; omega
    have head : (pack before).length = before.length * recordSize :=
      length_pack fun x member => keyed x (List.mem_append_left _ member)
    have upto : before.length * recordSize + fpSize = (pack before ++ key).length := by
      rw [List.length_append, head, size]
    have whole : pack (before ++ (key, n) :: after) = (pack before ++ key) ++ (u64 n ++ pack after) := by
      simp
    have past : before.length * recordSize + fpSize + 8 = (pack before ++ key ++ u64 n).length := by
      rw [List.length_append, ← upto, length_u64]
    have counter : ((pack (before ++ (key, n) :: after)).drop
        (before.length * recordSize + fpSize)).take 8 = u64 n := by
      rw [whole, upto, List.drop_left, ← length_u64 n, List.take_left]
    have rest : (pack (before ++ (key, n) :: after)).drop
        (before.length * recordSize + fpSize + 8) = pack after := by
      rw [whole, past, ← List.append_assoc, List.drop_left]
    have front : (pack (before ++ (key, n) :: after)).take
        (before.length * recordSize + fpSize) = pack before ++ key := by
      rw [whole, upto, List.take_left]
    rw [searchFrom_found before after fresh 0 near, bump_append_cons fresh, Nat.zero_add,
      if_pos (by simpa using fits)]
    simp only [Option.bind_eq_bind, Option.bind_some]
    rw [counter, rest, front, u64_ofLE_succ]
    simp
  · rw [searchFrom_missing t present 0 (by simp [recordLimit]), bump_of_not_mem present,
      List.length_append, List.length_singleton, Nat.zero_add]
    by_cases near : t.length < recordLimit
    · rw [if_pos near, if_pos (by omega)]
      simp
    · rw [if_neg near, if_neg (by omega)]
      rfl

/-! ### Databases as tallies -/

def leftTable (pairs : List (Fp × Fp)) (x : Fp) : Table := tally ((predecessors pairs x).map assigned)

def rightTable (pairs : List (Fp × Fp)) (x : Fp) : Table := tally ((successors pairs x).map assigned)

/-- The databases after chunks `seen` with neighbouring `pairs`. -/
structure Represents (seen : List Fp) (pairs : List (Fp × Fp)) (s : Databases) : Prop where
  frequency (x : Fp) : s.db.get x = if seen.count x = 0 then none else some (u64 (seen.count x))
  left (x : Fp) : s.storeLeft.get x = packed (leftTable pairs x)
  right (x : Fp) : s.storeRight.get x = packed (rightTable pairs x)

/-- No table is longer than the search loop can handle. -/
def Fits (pairs : List (Fp × Fp)) : Prop :=
  ∀ x, (leftTable pairs x).length ≤ recordLimit ∧ (rightTable pairs x).length ≤ recordLimit

theorem represents_empty : Represents [] [] .empty :=
  ⟨fun _ => rfl, fun _ => rfl, fun _ => rfl⟩

theorem length_assigned (x : Fp) : (assigned x).length = fpSize := length_resize _ _

theorem keyed_tally (xs : List Fp) : Keyed (tally (xs.map assigned)) := by
  intro e member
  have key : e.1 ∈ (tally (xs.map assigned)).map Prod.fst := List.mem_map_of_mem member
  obtain ⟨x, -, same⟩ := List.mem_map.mp ((mem_keys_tally _ _).mp key)
  rw [← same, length_assigned]

theorem predecessors_concat (pairs : List (Fp × Fp)) (p : Fp × Fp) (x : Fp) :
    predecessors (pairs ++ [p]) x =
      if p.2 = x then predecessors pairs x ++ [p.1] else predecessors pairs x := by
  by_cases hit : p.2 = x <;> simp [predecessors, List.filter_append, hit]

theorem successors_eq (pairs : List (Fp × Fp)) (x : Fp) :
    successors pairs x = predecessors (pairs.map Prod.swap) x := by
  rw [successors, predecessors, List.filter_map, List.map_map]
  rfl

theorem successors_concat (pairs : List (Fp × Fp)) (p : Fp × Fp) (x : Fp) :
    successors (pairs ++ [p]) x =
      if p.1 = x then successors pairs x ++ [p.2] else successors pairs x := by
  rw [successors_eq, successors_eq, List.map_append, List.map_singleton, predecessors_concat, Prod.fst_swap,
    Prod.snd_swap]

theorem leftTable_concat (pairs : List (Fp × Fp)) (p : Fp × Fp) (x : Fp) :
    leftTable (pairs ++ [p]) x =
      if p.2 = x then bump (assigned p.1) (leftTable pairs x) else leftTable pairs x := by
  rw [leftTable, predecessors_concat]
  split
  · rw [List.map_append, List.map_singleton, tally_concat, leftTable]
  · rfl

theorem rightTable_concat (pairs : List (Fp × Fp)) (p : Fp × Fp) (x : Fp) :
    rightTable (pairs ++ [p]) x =
      if p.1 = x then bump (assigned p.2) (rightTable pairs x) else rightTable pairs x := by
  rw [rightTable, successors_concat]
  split
  · rw [List.map_append, List.map_singleton, tally_concat, rightTable]
  · rfl

theorem fits_mono {pairs more : List (Fp × Fp)} (fits : Fits (pairs ++ more)) : Fits pairs := by
  intro x
  have left : (predecessors pairs x).map assigned ⊆ (predecessors (pairs ++ more) x).map assigned := by
    simp only [predecessors, List.filter_append, List.map_append]
    exact List.subset_append_left _ _
  have right : (successors pairs x).map assigned ⊆ (successors (pairs ++ more) x).map assigned := by
    simp only [successors, List.filter_append, List.map_append]
    exact List.subset_append_left _ _
  exact ⟨(length_tally_mono left).trans (fits x).1, (length_tally_mono right).trans (fits x).2⟩

theorem fits_nil : Fits [] := fun _ => ⟨Nat.zero_le _, Nat.zero_le _⟩

theorem countFrequency_get {seen : List Fp} {db : OrderedMap Fp Bytes}
    (frequency : ∀ x, db.get x = if seen.count x = 0 then none else some (u64 (seen.count x)))
    (hash x : Fp) : (countFrequency db hash).get x =
      if (seen ++ [hash]).count x = 0 then none else some (u64 ((seen ++ [hash]).count x)) := by
  have counted : (seen ++ [hash]).count x = seen.count x + if x = hash then 1 else 0 := by
    rw [List.count_append, List.count_singleton]
    simp only [beq_iff_eq, eq_comm (a := x)]
  rw [countFrequency]
  split
  · rename_i value found
    have present := frequency hash
    rw [found] at present
    split at present
    · cases present
    · rw [OrderedMap.get_put_delete, counted]
      obtain rfl := Option.some.inj present
      have exact_size : (u64 (seen.count hash)).take 8 = u64 (seen.count hash) :=
        List.take_of_length_le (by rw [length_u64])
      by_cases same : x = hash
      · subst same
        rw [if_pos rfl, if_pos rfl, if_neg (Nat.succ_ne_zero _), exact_size, u64_ofLE_succ]
      · rw [if_neg same, if_neg same, frequency x, Nat.add_zero]
  · rename_i missing
    have absent := frequency hash
    rw [missing] at absent
    split at absent
    · rename_i zero
      rw [OrderedMap.get_put, counted]
      by_cases same : x = hash
      · subst same
        rw [if_pos rfl, if_pos rfl, zero]
        rfl
      · rw [if_neg same, if_neg same, frequency x, Nat.add_zero]
    · cases absent

/-- Counting a neighbour touches one table, and is undefined when that table gets too long. -/
theorem countNeighbour_spec {store : OrderedMap Fp Bytes} {tables : Fp → Table} (key neighbour : Fp)
    (represents : ∀ x, store.get x = packed (tables x)) (keyed : Keyed (tables key))
    (fits : (tables key).length ≤ recordLimit) :
    if (bump (assigned neighbour) (tables key)).length ≤ recordLimit then
      ∃ store', countNeighbour store key neighbour = some store' ∧ ∀ x, store'.get x =
        packed (if key = x then bump (assigned neighbour) (tables x) else tables x)
    else countNeighbour store key neighbour = none := by
  have added := addNeighbour_packed keyed (length_assigned neighbour) fits
  rw [← represents key] at added
  split
  · rename_i short
    rw [if_pos short] at added
    refine ⟨(store.delete key).put key (pack (bump (assigned neighbour) (tables key))), ?_, ?_⟩
    · rw [countNeighbour, added]
      rfl
    · intro x
      rw [OrderedMap.get_put_delete]
      by_cases same : x = key
      · subst same
        rw [if_pos rfl, if_pos rfl, packed_ne_nil (bump_ne_nil _ _)]
      · rw [if_neg same, if_neg (Ne.symm same), represents x]
  · rename_i long
    rw [if_neg long] at added
    rw [countNeighbour, added]
    rfl

def newPair (last : Option Fp) (hash : Fp) : List (Fp × Fp) :=
  match last with
  | none => []
  | some l => [(l, hash)]

theorem countChunk_spec {seen : List Fp} {pairs : List (Fp × Fp)} {s : Databases}
    (represents : Represents seen pairs s) (fits : Fits pairs) (last : Option Fp) (hash : Fp) :
    (Fits (pairs ++ newPair last hash) → ∃ s', countChunk s last hash = some s' ∧
      Represents (seen ++ [hash]) (pairs ++ newPair last hash) s') ∧
    (¬ Fits (pairs ++ newPair last hash) → countChunk s last hash = none) := by
  have counted := countFrequency_get represents.frequency hash
  cases last with
  | none =>
    rw [newPair, List.append_nil]
    exact ⟨fun _ => ⟨_, rfl, ⟨counted, represents.left, represents.right⟩⟩, fun bad => absurd fits bad⟩
  | some l =>
    have left := countNeighbour_spec hash l represents.left
      (keyed_tally _) (fits hash).1
    have right := countNeighbour_spec l hash represents.right
      (keyed_tally _) (fits l).2
    rw [newPair]
    constructor
    · intro fits'
      have short := (fits' hash).1
      have short' := (fits' l).2
      rw [leftTable_concat, if_pos rfl] at short
      rw [rightTable_concat, if_pos rfl] at short'
      rw [if_pos short] at left
      rw [if_pos short'] at right
      obtain ⟨storeLeft, hl, getLeft⟩ := left
      obtain ⟨storeRight, hr, getRight⟩ := right
      refine ⟨⟨countFrequency s.db hash, storeLeft, storeRight⟩, ?_, counted, ?_, ?_⟩
      · rw [countChunk]
        simp only [hl, hr, Option.bind_eq_bind, Option.bind_some]
      · intro x
        rw [leftTable_concat]
        exact getLeft x
      · intro x
        rw [rightTable_concat]
        exact getRight x
    · intro bad
      -- Only the two tables that the pair touches can have become too long.
      have touched : ¬ ((bump (assigned l) (leftTable pairs hash)).length ≤ recordLimit ∧
          (bump (assigned hash) (rightTable pairs l)).length ≤ recordLimit) := by
        rintro ⟨short, short'⟩
        apply bad
        intro x
        rw [leftTable_concat, rightTable_concat]
        constructor
        · split
          · rename_i same
            exact same ▸ short
          · exact (fits x).1
        · split
          · rename_i same
            exact same ▸ short'
          · exact (fits x).2
      rw [countChunk]
      split at left
      · rename_i short
        obtain ⟨storeLeft, hl, -⟩ := left
        rw [if_neg fun short' => touched ⟨short, short'⟩] at right
        simp only [hl, right, Option.bind_eq_bind, Option.bind_some, Option.bind_none]
      · simp only [left, Option.bind_eq_bind, Option.bind_none]

/-! ### Runs -/

def countStep (st : Databases × Option Fp) (hash : Fp) : Option (Databases × Option Fp) :=
  (countChunk st.1 st.2 hash).map fun s => (s, some hash)

theorem readLines_chunks (lines : List Bytes) (st : Databases × Option Fp) :
    lines.foldlM readLine st = (chunksOf lines).foldlM countStep st := by
  induction lines generalizing st with
  | nil => rfl
  | cons line lines ih =>
    rw [List.foldlM_cons, readLine]
    cases title : isTitle line with
    | true =>
      rw [if_pos rfl, chunksOf, List.filter_cons_of_neg (by simp [title])]
      exact ih st
    | false =>
      rw [if_neg Bool.false_ne_true, chunksOf, List.filter_cons_of_pos (by simp [title]), List.map_cons,
        List.foldlM_cons, countStep]
      cases counted : countChunk st.1 st.2 (readChunk line).1 with
      | none => simp only [counted, Option.bind_eq_bind, Option.bind_none, Option.map_none]
      | some s =>
        simp only [counted, Option.bind_eq_bind, Option.bind_some, Option.map_some]
        exact ih (s, some (readChunk line).1)

theorem adjacent_concat (trace : List Fp) (x : Fp) :
    adjacent (trace ++ [x]) = adjacent trace ++ newPair trace.getLast? x := by
  induction trace with
  | nil => rfl
  | cons a trace ih =>
    cases trace with
    | nil => rfl
    | cons b trace =>
      have tail : adjacent (a :: b :: trace ++ [x]) = (a, b) :: adjacent (b :: trace ++ [x]) := rfl
      rw [tail, ih]
      rfl

theorem adjacent_append (trace after : List Fp) : ∃ more, adjacent (trace ++ after) = adjacent trace ++ more := by
  induction after using List.reverseRecOn with
  | nil => exact ⟨[], by simp⟩
  | append_singleton after y ih =>
    obtain ⟨more, grown⟩ := ih
    refine ⟨more ++ newPair (trace ++ after).getLast? y, ?_⟩
    rw [← List.append_assoc, adjacent_concat, grown, List.append_assoc]

theorem adjacents_concat (traces : List (List Fp)) (trace : List Fp) :
    adjacents (traces ++ [trace]) = adjacents traces ++ adjacent trace := by
  simp [adjacents]

/-- The result of reading chunks `seen` with neighbouring `pairs`: databases that represent them,
or nothing if a table gets too long. -/
def Computes (seen : List Fp) (pairs : List (Fp × Fp)) (result : Option Databases) : Prop :=
  (Fits pairs → ∃ s, result = some s ∧ Represents seen pairs s) ∧ (¬ Fits pairs → result = none)

theorem Computes.represents {seen : List Fp} {pairs : List (Fp × Fp)} {s : Databases}
    (computes : Computes seen pairs (some s)) : Fits pairs ∧ Represents seen pairs s := by
  by_cases fits : Fits pairs
  · obtain ⟨s', same, represents⟩ := computes.1 fits
    exact ⟨fits, Option.some.inj same ▸ represents⟩
  · cases computes.2 fits

theorem countTrace_computes {seen : List Fp} {pairs : List (Fp × Fp)} (before after : List Fp)
    {s : Databases} (fits : Fits (pairs ++ adjacent before))
    (represents : Represents (seen ++ before) (pairs ++ adjacent before) s) :
    Computes (seen ++ (before ++ after)) (pairs ++ adjacent (before ++ after))
      ((after.foldlM countStep (s, before.getLast?)).map Prod.fst) := by
  induction after generalizing before s with
  | nil =>
    rw [List.append_nil]
    exact ⟨fun _ => ⟨s, rfl, represents⟩, fun bad => absurd fits bad⟩
  | cons x after ih =>
    have step := countChunk_spec represents fits before.getLast? x
    have moved : before ++ x :: after = (before ++ [x]) ++ after := by simp
    have last : (before ++ [x]).getLast? = some x := by simp
    rw [List.append_assoc, ← adjacent_concat, List.append_assoc] at step
    rw [List.foldlM_cons, countStep, moved]
    by_cases fits' : Fits (pairs ++ adjacent (before ++ [x]))
    · obtain ⟨s', counted, represents'⟩ := step.1 fits'
      rw [counted, ← last]
      exact ih (before ++ [x]) fits' represents'
    · rw [step.2 fits']
      refine ⟨fun fits => absurd ?_ fits', fun _ => rfl⟩
      obtain ⟨more, grown⟩ := adjacent_append (before ++ [x]) after
      rw [grown, ← List.append_assoc] at fits
      exact fits_mono fits

theorem readLines_computes {seen : List Fp} {pairs : List (Fp × Fp)} {result : Option Databases}
    (computes : Computes seen pairs result) (lines : List Bytes) :
    Computes (seen ++ chunksOf lines) (pairs ++ adjacent (chunksOf lines))
      (result.bind fun s => readLines s lines) := by
  cases result with
  | none =>
    have bad : ¬ Fits pairs := by
      intro fits
      obtain ⟨s, same, -⟩ := computes.1 fits
      cases same
    exact ⟨fun fits => absurd (fits_mono fits) bad, fun _ => rfl⟩
  | some s =>
    obtain ⟨fits, represents⟩ := computes.represents
    rw [Option.bind_some, readLines, readLines_chunks]
    have start : adjacent ([] : List Fp) = [] := rfl
    have traced := countTrace_computes [] (chunksOf lines)
      (show Fits (pairs ++ adjacent []) by rwa [start, List.append_nil])
      (show Represents (seen ++ []) (pairs ++ adjacent []) s by
        rwa [start, List.append_nil, List.append_nil])
    rwa [List.nil_append] at traced

theorem feed_concat (fps : List Bytes) (fp : Bytes) :
    feed (fps ++ [fp]) = (feed fps).bind fun s => readLines s (bufferLines 256 fp) := by
  simp [feed, List.foldlM_append, readHashes]

theorem feed_computes (fps : List Bytes) :
    Computes (fps.map traceOf).flatten (adjacents (fps.map traceOf)) (feed fps) := by
  induction fps using List.reverseRecOn with
  | nil => exact ⟨fun _ => ⟨_, rfl, represents_empty⟩, fun bad => absurd fits_nil bad⟩
  | append_singleton fps fp ih =>
    rw [feed_concat, List.map_append, List.map_singleton, List.flatten_append, List.flatten_singleton,
      adjacents_concat]
    exact readLines_computes ih _

end EncryptedDedup.LocalityCount
