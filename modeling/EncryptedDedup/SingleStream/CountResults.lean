import EncryptedDedup.SingleStream.NeighbourTables

/-!
# Neighbour tables and co-occurrence counts

When the stored tables are the co-occurrence counts of the traces, and how the three databases of a
run are linked after every line.
-/

namespace EncryptedDedup.LocalityCount

/-! ### Reading tables back -/

def records (t : Table) : List (Fp × Nat) := t.map fun e => (Fp.ofBytes e.1, e.2 % 2 ^ 64)

theorem unpack_pack {t : Table} (keyed : Keyed t) : unpack (pack t) = some (records t) := by
  have counted : ∀ (t : Table) (n : Nat), Keyed t → t.length ≤ n →
      unpackN n (pack t) = some (records t) := by
    intro t
    induction t with
    | nil =>
      intro n _ _
      cases n <;> rfl
    | cons e t ih =>
      intro n keyed enough
      obtain ⟨n, rfl⟩ : ∃ m, n = m + 1 := ⟨n - 1, by simp at enough; omega⟩
      have key : e.1.length = fpSize := keyed e List.mem_cons_self
      have tail : Keyed t := fun x member => keyed x (List.mem_cons_of_mem _ member)
      have room : recordSize ≤ (pack (e :: t)).length := by
        rw [length_pack keyed, List.length_cons]
        exact Nat.le_mul_of_pos_left _ (Nat.succ_pos _)
      have size : (e.1 ++ u64 e.2).length = recordSize := by
        rw [List.length_append, key, length_u64]
        rfl
      have first : (pack (e :: t)).take fpSize = e.1 := by
        rw [pack_cons, List.append_assoc, ← key, List.take_left]
      have count : ((pack (e :: t)).drop fpSize).take 8 = u64 e.2 := by
        rw [pack_cons, List.append_assoc, ← key, List.drop_left, ← length_u64 e.2, List.take_left]
      have rest : (pack (e :: t)).drop recordSize = pack t := by
        rw [pack_cons, ← size, List.drop_left]
      obtain ⟨b, v, shape⟩ : ∃ b v, pack (e :: t) = b :: v := by
        cases whole : pack (e :: t) with
        | nil =>
          rw [whole] at room
          exact absurd room (by decide)
        | cons b v => exact ⟨b, v, rfl⟩
      have unfolded : unpackN (n + 1) (pack (e :: t)) = (do
          let rest ← unpackN n ((pack (e :: t)).drop recordSize)
          some ((Fp.ofBytes ((pack (e :: t)).take fpSize),
            ofLE (((pack (e :: t)).drop fpSize).take 8)) :: rest)) := by
        rw [shape] at room ⊢
        rw [unpackN, if_pos room]
        exact fun empty => List.cons_ne_nil b v empty
      rw [unfolded, first, count, rest, ih n tail (by simpa using enough), ofLE_u64]
      rfl
  refine counted t _ keyed ?_
  rw [length_pack keyed]
  exact Nat.le_mul_of_pos_right _ (by decide)

theorem tableOf_packed {store : OrderedMap Fp Bytes} {x : Fp} {t : Table} (keyed : Keyed t)
    (stored : store.get x = packed t) : tableOf store x = some (records t) := by
  rw [tableOf, stored]
  by_cases vacant : t = []
  · subst vacant
    rfl
  · rw [packed_ne_nil vacant]
    exact unpack_pack keyed

theorem Represents.tableOf_left {seen : List Fp} {pairs : List (Fp × Fp)} {s : Databases}
    (represents : Represents seen pairs s) (x : Fp) :
    tableOf s.storeLeft x = some (records (leftTable pairs x)) :=
  tableOf_packed (keyed_tally _) (represents.left x)

theorem Represents.tableOf_right {seen : List Fp} {pairs : List (Fp × Fp)} {s : Databases}
    (represents : Represents seen pairs s) (x : Fp) :
    tableOf s.storeRight x = some (records (rightTable pairs x)) :=
  tableOf_packed (keyed_tally _) (represents.right x)

theorem keys_records_nodup (xs : List Fp) :
    ((records (tally (xs.map assigned))).map Prod.fst).Nodup := by
  have keys : (records (tally (xs.map assigned))).map Prod.fst =
      ((tally (xs.map assigned)).map Prod.fst).map Fp.ofBytes := by
    rw [records, List.map_map, List.map_map]
    rfl
  rw [keys]
  refine (keys_tally_nodup _).map_on ?_
  intro a ha b hb same
  have size : ∀ k ∈ (tally (xs.map assigned)).map Prod.fst, k.length = fpSize := by
    intro k member
    obtain ⟨e, entry, rfl⟩ := List.mem_map.mp member
    exact keyed_tally xs e entry
  rw [← Fp.ofBytes_eq (size a ha), ← Fp.ofBytes_eq (size b hb), same]

/-! ### Fingerprints that survive a C string -/

/-- Only zero bytes follow a zero byte. -/
def StringSafe (x : Fp) : Prop := ∀ l r, x.bytes = l ++ 0 :: r → ∀ b ∈ r, b = 0

theorem assigned_eq_iff (x : Fp) : assigned x = x.bytes ↔ StringSafe x := by
  rw [assigned, ← x.size_eq]
  exact resize_cstr_eq_self x.bytes

theorem assigned_ofBytes (x : Fp) : assigned (Fp.ofBytes (assigned x)) = assigned x := by
  rw [assigned, Fp.ofBytes_eq (length_assigned x)]
  exact resize_cstr_idem _ _

theorem map_assigned {xs : List Fp} (safe : ∀ x ∈ xs, StringSafe x) :
    xs.map assigned = xs.map Fp.bytes :=
  List.map_congr_left fun x member => (assigned_eq_iff x).mpr (safe x member)

theorem bytes_injective : Function.Injective Fp.bytes := fun _ _ => Fp.ext

theorem length_tally_assigned {xs : List Fp} (safe : ∀ x ∈ xs, StringSafe x) :
    (tally (xs.map assigned)).length = xs.dedup.length := by
  rw [map_assigned safe, length_tally, List.dedup_map_of_injective bytes_injective, List.length_map]

/-! ### Tables that list neighbours -/

/-- The table holds one record for each fingerprint with a positive count, and no other. -/
def Lists (table : Option (List (Fp × Nat))) (count : Fp → Nat) : Prop :=
  ∃ recs, table = some recs ∧ (recs.map Prod.fst).Nodup ∧
    ∀ y n, (y, n) ∈ recs ↔ n = count y ∧ 0 < n

theorem lists_records_iff (xs : List Fp) :
    Lists (some (records (tally (xs.map assigned)))) (fun y => xs.count y) ↔
      (∀ x ∈ xs, StringSafe x) ∧ ∀ y, xs.count y < 2 ^ 64 := by
  constructor
  · rintro ⟨recs, same, -, listed⟩
    obtain rfl := Option.some.inj same
    have stored : ∀ x ∈ xs, ∃ e ∈ tally (xs.map assigned), (x, xs.count x) = (Fp.ofBytes e.1, e.2 % 2 ^ 64) := by
      intro x member
      have entry := (listed x (xs.count x)).mpr ⟨rfl, List.count_pos_iff.mpr member⟩
      obtain ⟨e, present, same⟩ := List.mem_map.mp entry
      exact ⟨e, present, same.symm⟩
    constructor
    · intro x member
      obtain ⟨e, present, same⟩ := stored x member
      have key : e.1 ∈ (tally (xs.map assigned)).map Prod.fst := List.mem_map_of_mem present
      obtain ⟨z, -, written⟩ := List.mem_map.mp ((mem_keys_tally _ _).mp key)
      have image : x = Fp.ofBytes (assigned z) := by rw [written, (Prod.mk.inj same).1]
      rw [← assigned_eq_iff, image, assigned_ofBytes, Fp.ofBytes_eq (length_assigned z)]
    · intro y
      by_cases member : y ∈ xs
      · obtain ⟨e, -, same⟩ := stored y member
        rw [(Prod.mk.inj same).2]
        exact Nat.mod_lt _ (by decide)
      · rw [List.count_eq_zero_of_not_mem member]
        decide
  · rintro ⟨safe, small⟩
    refine ⟨_, rfl, keys_records_nodup xs, fun y n => ?_⟩
    have counted : ∀ m, (y.bytes, m) ∈ tally (xs.map assigned) ↔ m = xs.count y ∧ 0 < m := by
      intro m
      rw [map_assigned safe]
      exact mem_tally_map bytes_injective
    constructor
    · intro member
      obtain ⟨e, present, same⟩ := List.mem_map.mp member
      have size : e.1.length = fpSize := keyed_tally xs e present
      have written : e.1 = y.bytes := by rw [← (Prod.mk.inj same).1, Fp.ofBytes_eq size]
      obtain ⟨value, positive⟩ := (counted e.2).mp (written ▸ present)
      rw [← (Prod.mk.inj same).2, value, Nat.mod_eq_of_lt (small y)]
      exact ⟨rfl, value ▸ positive⟩
    · rintro ⟨rfl, positive⟩
      refine List.mem_map.mpr ⟨(y.bytes, xs.count y), (counted _).mpr ⟨rfl, positive⟩, ?_⟩
      rw [Fp.ofBytes_bytes, Nat.mod_eq_of_lt (small y)]

/-- How often `y` is immediately followed by `x`. -/
def cooccurrences (traces : List (List Fp)) (y x : Fp) : Nat := (adjacents traces).count (y, x)

theorem count_predecessors (pairs : List (Fp × Fp)) (x y : Fp) :
    (predecessors pairs x).count y = pairs.count (y, x) := by
  induction pairs with
  | nil => rfl
  | cons p pairs ih =>
    obtain ⟨a, b⟩ := p
    by_cases hit : b = x
    · subst hit
      rw [predecessors, List.filter_cons_of_pos (by simp), List.map_cons, List.count_cons, List.count_cons]
      exact congrArg₂ (· + ·) ih (by simp)
    · rw [predecessors, List.filter_cons_of_neg (by simpa using hit), List.count_cons_of_ne (by simp [hit])]
      exact ih

theorem count_successors (pairs : List (Fp × Fp)) (x y : Fp) :
    (successors pairs x).count y = pairs.count (x, y) := by
  have mirrored := count_predecessors (pairs.map Prod.swap) x y
  rw [← Prod.swap_prod_mk, List.count_map_of_injective _ _ Prod.swap_injective] at mirrored
  rw [successors_eq, mirrored]

/-- The left table of every chunk lists its immediate predecessors with their co-occurrence counts,
the right table its immediate successors. -/
def NeighbourTables (traces : List (List Fp)) (result : Option Databases) : Prop :=
  ∃ s, result = some s ∧ ∀ x,
    Lists (tableOf s.storeLeft x) (fun y => cooccurrences traces y x) ∧
    Lists (tableOf s.storeRight x) (fun y => cooccurrences traces x y)

/-- Neighbouring chunks survive a C string, counts fit 64 bits and tables fit `int pos`. -/
structure Countable (traces : List (List Fp)) : Prop where
  safe : ∀ p ∈ adjacents traces, StringSafe p.1 ∧ StringSafe p.2
  counts : ∀ y x, cooccurrences traces y x < 2 ^ 64
  tables : ∀ x, (predecessors (adjacents traces) x).dedup.length ≤ 153391690 ∧
    (successors (adjacents traces) x).dedup.length ≤ 153391690

theorem recordLimit_eq : recordLimit = 153391690 := by decide

theorem mem_predecessors {pairs : List (Fp × Fp)} {x y : Fp} :
    y ∈ predecessors pairs x ↔ (y, x) ∈ pairs := by
  rw [← List.count_pos_iff, count_predecessors, List.count_pos_iff]

theorem mem_successors {pairs : List (Fp × Fp)} {x y : Fp} :
    y ∈ successors pairs x ↔ (x, y) ∈ pairs := by
  rw [← List.count_pos_iff, count_successors, List.count_pos_iff]

/-- The tables of a run list the neighbours with their counts exactly when the traces are countable. -/
theorem neighbourTables_iff (fps : List Bytes) :
    NeighbourTables (fps.map traceOf) (feed fps) ↔ Countable (fps.map traceOf) := by
  have computes := feed_computes fps
  have left_iff := fun x => lists_records_iff (predecessors (adjacents (fps.map traceOf)) x)
  have right_iff := fun x => lists_records_iff (successors (adjacents (fps.map traceOf)) x)
  simp only [count_predecessors] at left_iff
  simp only [count_successors] at right_iff
  constructor
  · rintro ⟨s, run, listed⟩
    rw [run] at computes
    obtain ⟨fits, represents⟩ := computes.represents
    have left : ∀ x, (∀ y ∈ predecessors (adjacents (fps.map traceOf)) x, StringSafe y) ∧
        ∀ y, (adjacents (fps.map traceOf)).count (y, x) < 2 ^ 64 := by
      intro x
      rw [← left_iff x, ← leftTable, ← represents.tableOf_left]
      exact (listed x).1
    have right : ∀ x, (∀ y ∈ successors (adjacents (fps.map traceOf)) x, StringSafe y) ∧
        ∀ y, (adjacents (fps.map traceOf)).count (x, y) < 2 ^ 64 := by
      intro x
      rw [← right_iff x, ← rightTable, ← represents.tableOf_right]
      exact (listed x).2
    refine ⟨fun p member => ⟨?_, ?_⟩, fun y x => (left x).2 y, fun x => ⟨?_, ?_⟩⟩
    · exact (left p.2).1 p.1 (mem_predecessors.mpr member)
    · exact (right p.1).1 p.2 (mem_successors.mpr member)
    · rw [← recordLimit_eq, ← length_tally_assigned (left x).1]
      exact (fits x).1
    · rw [← recordLimit_eq, ← length_tally_assigned (right x).1]
      exact (fits x).2
  · rintro ⟨safe, counts, tables⟩
    have left : ∀ x, ∀ y ∈ predecessors (adjacents (fps.map traceOf)) x, StringSafe y :=
      fun x y member => (safe _ (mem_predecessors.mp member)).1
    have right : ∀ x, ∀ y ∈ successors (adjacents (fps.map traceOf)) x, StringSafe y :=
      fun x y member => (safe _ (mem_successors.mp member)).2
    have fits : Fits (adjacents (fps.map traceOf)) := by
      intro x
      rw [leftTable, rightTable, length_tally_assigned (left x), length_tally_assigned (right x),
        recordLimit_eq]
      exact tables x
    obtain ⟨s, run, represents⟩ := computes.1 fits
    refine ⟨s, run, fun x => ⟨?_, ?_⟩⟩
    · rw [represents.tableOf_left]
      exact (left_iff x).mpr ⟨left x, fun y => counts y x⟩
    · rw [represents.tableOf_right]
      exact (right_iff x).mpr ⟨right x, fun y => counts x y⟩

def zeroByteTrace : Bytes :=
  chars "01:00:02:03:04:05\t8192\t10\n0a:0b:0c:0d:0e:0f\t8192\t10\n".toList

/-- The left neighbour `01:00:02:03:04:05` is counted as `01:00:00:00:00:00`. -/
theorem neighbourTables_zeroByte :
    ¬ NeighbourTables ([zeroByteTrace].map traceOf) (feed [zeroByteTrace]) := by
  rintro ⟨s, run, listed⟩
  have stored : (feed [zeroByteTrace]).map
      (fun s => tableOf s.storeLeft (Fp.ofBytes [10, 11, 12, 13, 14, 15])) =
        some (some [(Fp.ofBytes [1], 1)]) := by decide +kernel
  rw [run, Option.map_some, Option.some_inj] at stored
  obtain ⟨recs, table, -, exact⟩ := (listed (Fp.ofBytes [10, 11, 12, 13, 14, 15])).1
  rw [stored] at table
  obtain rfl := Option.some.inj table
  have counted := (exact (Fp.ofBytes [1]) 1).mp List.mem_cons_self
  revert counted
  decide +kernel

end EncryptedDedup.LocalityCount
