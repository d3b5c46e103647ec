import EncryptedDedup.SingleStream.CountResults
import EncryptedDedup.SingleStream.KMinhash

/-!
# Linked tables

The counts stored for a fingerprint on either side add up to its frequency, but for the ends of the
traces. This holds after every line until a table gets too long to search.
-/

namespace EncryptedDedup.LocalityCount

/-! ### Sums of counts -/

/-- `F[x]`, zero if `x` has no entry. -/
def countOf (s : Databases) (x : Fp) : Nat := ((s.db.get x).map ofLE).getD 0

def storedSum (table : Option (List (Fp × Nat))) : Nat := ((table.getD []).map Prod.snd).sum

def starts (traces : List (List Fp)) (x : Fp) : Nat := traces.countP (fun t => t.head? = some x)

def ends (traces : List (List Fp)) (x : Fp) : Nat := traces.countP (fun t => t.getLast? = some x)

def occurrences (traces : List (List Fp)) (x : Fp) : Nat := traces.flatten.count x

/-- Whole records, at least one, with distinct keys. -/
def WholeRecords (value : Bytes) : Prop :=
  ∃ recs, unpack value = some recs ∧ recs ≠ [] ∧ (recs.map Prod.fst).Nodup

/-- How the three databases are linked. -/
structure Linked (traces : List (List Fp)) (s : Databases) : Prop where
  whole : ∀ x value, s.storeLeft.get x = some value ∨ s.storeRight.get x = some value →
    WholeRecords value
  positive : ∀ x table, tableOf s.storeLeft x = some table ∨ tableOf s.storeRight x = some table →
    ∀ e ∈ table, 1 ≤ e.2
  left_sum : ∀ x, storedSum (tableOf s.storeLeft x) + starts traces x = countOf s x
  right_sum : ∀ x, storedSum (tableOf s.storeRight x) + ends traces x = countOf s x

theorem length_predecessors (trace : List Fp) (x : Fp) :
    (predecessors (adjacent trace) x).length + (if trace.head? = some x then 1 else 0) = trace.count x := by
  induction trace using List.reverseRecOn with
  | nil => simp [adjacent, predecessors]
  | append_singleton trace y ih =>
    rw [adjacent_concat, List.count_append, List.count_singleton, ← ih]
    cases trace using List.reverseRecOn with
    | nil =>
      simp [adjacent, predecessors, newPair]
    | append_singleton trace z =>
      have pair : newPair (trace ++ [z]).getLast? y = [(z, y)] := by simp [newPair]
      have head : (trace ++ [z] ++ [y]).head? = (trace ++ [z]).head? := by
        cases trace <;> rfl
      rw [pair, head, predecessors_concat]
      by_cases hit : y = x
      · simp only [hit, if_true, beq_self_eq_true, List.length_append, List.length_singleton]
        omega
      · simp only [hit, if_false, beq_iff_eq]
        rfl

theorem length_successors (trace : List Fp) (x : Fp) :
    (successors (adjacent trace) x).length + (if trace.getLast? = some x then 1 else 0) = trace.count x := by
  induction trace using List.reverseRecOn with
  | nil => simp [adjacent, successors]
  | append_singleton trace y ih =>
    rw [adjacent_concat, List.count_append, List.count_singleton, ← ih, List.getLast?_concat]
    cases trace using List.reverseRecOn with
    | nil =>
      simp [adjacent, successors, newPair]
    | append_singleton trace z =>
      have pair : newPair (trace ++ [z]).getLast? y = [(z, y)] := by simp [newPair]
      rw [pair, successors_concat, List.getLast?_concat]
      by_cases from_z : z = x <;> by_cases hit : y = x <;> simp [from_z, hit]

/-- Counted trace by trace, `x` has one neighbour on a side less than it has occurrences if it is
at that `edge` of the trace. -/
theorem length_adjacents (neighbours : List (Fp × Fp) → List Fp) {edge : List Fp → Option Fp} {x : Fp}
    (append : ∀ pairs more, neighbours (pairs ++ more) = neighbours pairs ++ neighbours more)
    (trace_length : ∀ trace : List Fp,
      (neighbours (adjacent trace)).length + (if edge trace = some x then 1 else 0) = trace.count x)
    (traces : List (List Fp)) :
    (neighbours (adjacents traces)).length + traces.countP (fun t => edge t = some x) = occurrences traces x := by
  induction traces with
  | nil =>
    have none_yet : neighbours [] ++ neighbours [] = neighbours [] := (append [] []).symm
    rw [List.append_left_eq_self] at none_yet
    simp [adjacents, none_yet, occurrences]
  | cons trace traces ih =>
    have one := trace_length trace
    have split : neighbours (adjacents (trace :: traces)) = neighbours (adjacent trace) ++ neighbours (adjacents traces) :=
      append _ _
    rw [split, List.countP_cons, occurrences, List.flatten_cons, List.count_append, List.length_append,
      ← occurrences, ← ih, ← one]
    simp only [decide_eq_true_eq]
    omega

theorem length_predecessors_adjacents (traces : List (List Fp)) (x : Fp) :
    (predecessors (adjacents traces) x).length + starts traces x = occurrences traces x := by
  apply length_adjacents (fun pairs => predecessors pairs x) ?_ fun trace => length_predecessors trace x
  intro pairs more
  simp only [predecessors, List.filter_append, List.map_append]

theorem length_successors_adjacents (traces : List (List Fp)) (x : Fp) :
    (successors (adjacents traces) x).length + ends traces x = occurrences traces x := by
  apply length_adjacents (fun pairs => successors pairs x) ?_ fun trace => length_successors trace x
  intro pairs more
  simp only [successors, List.filter_append, List.map_append]

theorem records_small (xs : List Fp) (small : xs.length < 2 ^ 64) :
    (∀ e ∈ records (tally (xs.map assigned)), 1 ≤ e.2) ∧
      storedSum (some (records (tally (xs.map assigned)))) = xs.length := by
  have exact_count : ∀ e ∈ tally (xs.map assigned), e.2 % 2 ^ 64 = e.2 ∧ 0 < e.2 := by
    intro e present
    obtain ⟨positive, bound⟩ := le_length_of_mem_tally present
    rw [List.length_map] at bound
    exact ⟨Nat.mod_eq_of_lt (lt_of_le_of_lt bound small), positive⟩
  constructor
  · intro e member
    obtain ⟨e, present, rfl⟩ := List.mem_map.mp member
    obtain ⟨same, positive⟩ := exact_count e present
    show 1 ≤ e.2 % 2 ^ 64
    rw [same]
    exact positive
  · have counts : (records (tally (xs.map assigned))).map Prod.snd = (tally (xs.map assigned)).map Prod.snd := by
      rw [records, List.map_map]
      exact List.map_congr_left fun e present => (exact_count e present).1
    rw [storedSum, Option.getD_some, counts, sum_tally, List.length_map]

theorem wholeRecords_packed {xs : List Fp} {value : Bytes}
    (stored : packed (tally (xs.map assigned)) = some value) : WholeRecords value := by
  by_cases vacant : tally (xs.map assigned) = []
  · rw [packed, if_pos vacant] at stored
    cases stored
  · rw [packed_ne_nil vacant, Option.some_inj] at stored
    refine ⟨_, stored ▸ unpack_pack (keyed_tally xs), ?_, keys_records_nodup xs⟩
    rw [records, Ne, List.map_eq_nil_iff]
    exact vacant

theorem Represents.countOf_eq {traces : List (List Fp)} {pairs : List (Fp × Fp)} {s : Databases}
    (represents : Represents traces.flatten pairs s) (x : Fp) : countOf s x = occurrences traces x % 2 ^ 64 := by
  rw [countOf, represents.frequency x, ← occurrences]
  split
  · rename_i zero
    rw [zero]
    rfl
  · rw [Option.map_some, Option.getD_some, ofLE_u64]

theorem Represents.linked {traces : List (List Fp)} {s : Databases} (small : ∀ x, occurrences traces x < 2 ^ 64)
    (represents : Represents traces.flatten (adjacents traces) s) : Linked traces s := by
  have total (x : Fp) : countOf s x = occurrences traces x := by
    rw [represents.countOf_eq, Nat.mod_eq_of_lt (small x)]
  have left (x : Fp) : (predecessors (adjacents traces) x).length < 2 ^ 64 := by
    have parts := length_predecessors_adjacents traces x
    have few := small x
    omega
  have right (x : Fp) : (successors (adjacents traces) x).length < 2 ^ 64 := by
    have parts := length_successors_adjacents traces x
    have few := small x
    omega
  refine ⟨?_, ?_, ?_, ?_⟩
  · rintro x value (stored | stored)
    · exact wholeRecords_packed (represents.left x ▸ stored)
    · exact wholeRecords_packed (represents.right x ▸ stored)
  · rintro x table (read | read)
    · rw [represents.tableOf_left, Option.some_inj] at read
      exact read ▸ (records_small _ (left x)).1
    · rw [represents.tableOf_right, Option.some_inj] at read
      exact read ▸ (records_small _ (right x)).1
  · intro x
    rw [represents.tableOf_left, leftTable, (records_small _ (left x)).2, total x, length_predecessors_adjacents]
  · intro x
    rw [represents.tableOf_right, rightTable, (records_small _ (right x)).2, total x, length_successors_adjacents]

/-- When a frequency comes back to zero, no sum is left to match it. -/
theorem Linked.not_wrapped {traces : List (List Fp)} {s : Databases} (linked : Linked traces s)
    (represents : Represents traces.flatten (adjacents traces) s) (x : Fp) : occurrences traces x ≠ 2 ^ 64 := by
  intro wrapped
  have zero : countOf s x = 0 := by rw [represents.countOf_eq, wrapped, Nat.mod_self]
  have sum := linked.left_sum x
  have parts := length_predecessors_adjacents traces x
  have filled : predecessors (adjacents traces) x ≠ [] := by
    intro empty
    rw [empty, List.length_nil] at parts
    omega
  obtain ⟨y, near⟩ := List.exists_mem_of_ne_nil _ filled
  have entry : assigned y ∈ (leftTable (adjacents traces) x).map Prod.fst :=
    (mem_keys_tally _ _).mpr (List.mem_map_of_mem near)
  obtain ⟨e, present, -⟩ := List.mem_map.mp entry
  have listed : (Fp.ofBytes e.1, e.2 % 2 ^ 64) ∈ records (leftTable (adjacents traces) x) :=
    List.mem_map.mpr ⟨e, present, rfl⟩
  have positive := linked.positive x _ (Or.inl (represents.tableOf_left x)) _ listed
  rw [represents.tableOf_left, storedSum, Option.getD_some] at sum
  have zeros := List.sum_eq_zero_iff_forall_eq_nat.mp (Nat.eq_zero_of_add_eq_zero_right (sum.trans zero)) _
    (List.mem_map_of_mem listed)
  rw [zeros] at positive
  exact absurd positive (by decide)

/-! ### Runs -/

def readTo (fps : List Bytes) (fp : Bytes) (k : Nat) : Option Databases :=
  (feed fps).bind fun s => readLines s ((bufferLines 256 fp).take k)

def tracesTo (fps : List Bytes) (fp : Bytes) (k : Nat) : List (List Fp) :=
  fps.map traceOf ++ [chunksOf ((bufferLines 256 fp).take k)]

theorem readTo_computes (fps : List Bytes) (fp : Bytes) (k : Nat) :
    Computes (tracesTo fps fp k).flatten (adjacents (tracesTo fps fp k)) (readTo fps fp k) := by
  rw [tracesTo, List.flatten_append, List.flatten_singleton, adjacents_concat]
  exact readLines_computes (feed_computes fps) _

def LinkedThroughout (fps : List Bytes) : Prop :=
  ∀ before fp after, fps = before ++ fp :: after → ∀ k, ∃ s, readTo before fp k = some s ∧ Linked (tracesTo before fp k) s

theorem LinkedThroughout.init {fps : List Bytes} {fp : Bytes} (linked : LinkedThroughout (fps ++ [fp])) :
    LinkedThroughout fps := by
  intro before file after split
  apply linked before file (after ++ [fp])
  rw [split, List.append_assoc, List.cons_append]

theorem tracesTo_length (fps : List Bytes) (fp : Bytes) :
    tracesTo fps fp (bufferLines 256 fp).length = (fps ++ [fp]).map traceOf := by
  rw [tracesTo, List.take_length, List.map_append, List.map_singleton, traceOf]

theorem chunksOf_append (lines more : List Bytes) : chunksOf (lines ++ more) = chunksOf lines ++ chunksOf more := by
  simp [chunksOf]

theorem length_chunksOf_le (lines : List Bytes) : (chunksOf lines).length ≤ lines.length := by
  rw [chunksOf, List.length_map]
  exact List.length_filter_le _ _

theorem tracesTo_grows (before : List Bytes) (fp : Bytes) (after : List Bytes) (k : Nat) :
    (∃ pairs, adjacents ((before ++ fp :: after).map traceOf) = adjacents (tracesTo before fp k) ++ pairs) ∧
    ∀ x, occurrences (tracesTo before fp k) x ≤ occurrences ((before ++ fp :: after).map traceOf) x := by
  have split : traceOf fp = chunksOf ((bufferLines 256 fp).take k) ++ chunksOf ((bufferLines 256 fp).drop k) := by
    rw [← chunksOf_append, List.take_append_drop, traceOf]
  obtain ⟨pairs, grown⟩ := adjacent_append (chunksOf ((bufferLines 256 fp).take k)) (chunksOf ((bufferLines 256 fp).drop k))
  refine ⟨⟨pairs ++ adjacents (after.map traceOf), ?_⟩, fun x => ?_⟩
  · rw [tracesTo, adjacents_concat, adjacents, List.map_append, List.map_cons, List.flatMap_append, List.flatMap_cons,
      split, grown, List.append_assoc, List.append_assoc]
    rfl
  · simp only [tracesTo, occurrences, List.map_append, List.map_cons, List.flatten_append, List.flatten_cons,
      List.flatten_nil, List.append_nil, List.count_append, split]
    omega

theorem LinkedThroughout.fits {fps : List Bytes} (linked : LinkedThroughout fps) : Fits (adjacents (fps.map traceOf)) := by
  cases fps using List.reverseRecOn with
  | nil => exact fits_nil
  | append_singleton fps fp =>
    obtain ⟨s, run, -⟩ := linked fps fp [] rfl (bufferLines 256 fp).length
    have computes := readTo_computes fps fp (bufferLines 256 fp).length
    rw [run, tracesTo_length] at computes
    exact computes.represents.1

/-- A counter that grows by steps of one passes every number on its way. -/
theorem exists_eq_of_steps {f : Nat → Nat} {b m : Nat} (start : f 0 < b) (steps : ∀ n, f (n + 1) ≤ f n + 1)
    (reached : b ≤ f m) : ∃ k, f k = b := by
  induction m with
  | zero => omega
  | succ m ih =>
    have step := steps m
    by_cases before : b ≤ f m
    · exact ih before
    · exact ⟨m + 1, by omega⟩

theorem LinkedThroughout.small {fps : List Bytes} (linked : LinkedThroughout fps) (x : Fp) :
    occurrences (fps.map traceOf) x < 2 ^ 64 := by
  induction fps using List.reverseRecOn with
  | nil => simp [occurrences]
  | append_singleton fps fp ih =>
    by_contra large
    rw [← tracesTo_length, Nat.not_lt] at large
    -- The frequency was zero again after some line of the last file.
    have start : occurrences (tracesTo fps fp 0) x < 2 ^ 64 := by
      have before := ih linked.init
      simpa [tracesTo, occurrences, chunksOf] using before
    have steps : ∀ k, occurrences (tracesTo fps fp (k + 1)) x ≤ occurrences (tracesTo fps fp k) x + 1 := by
      intro k
      have one := length_chunksOf_le (bufferLines 256 fp)[k]?.toList
      have single : (bufferLines 256 fp)[k]?.toList.length ≤ 1 := by cases (bufferLines 256 fp)[k]? <;> simp
      have few := List.count_le_length (a := x) (l := chunksOf (bufferLines 256 fp)[k]?.toList)
      simp only [tracesTo, occurrences, List.take_add_one, chunksOf_append, List.flatten_append, List.flatten_cons,
        List.flatten_nil, List.append_nil, List.count_append]
      omega
    obtain ⟨k, wrapped⟩ := exists_eq_of_steps (f := fun k => occurrences (tracesTo fps fp k) x) start steps large
    obtain ⟨s, run, here⟩ := linked fps fp [] rfl k
    have computes := readTo_computes fps fp k
    rw [run] at computes
    exact here.not_wrapped computes.represents.2 x wrapped

theorem fits_iff (pairs : List (Fp × Fp)) : Fits pairs ↔
    ∀ x, ((predecessors pairs x).map assigned).dedup.length ≤ 153391690 ∧
      ((successors pairs x).map assigned).dedup.length ≤ 153391690 := by
  unfold Fits leftTable rightTable
  simp only [length_tally, recordLimit_eq]

/-- The databases are linked after every line exactly if no fingerprint gets more neighbours, as C strings,
than `int pos` can search, and no frequency comes back to zero. -/
theorem linkedThroughout_iff (fps : List Bytes) :
    LinkedThroughout fps ↔
      (∀ x, ((predecessors (adjacents (fps.map traceOf)) x).map assigned).dedup.length ≤ 153391690 ∧
        ((successors (adjacents (fps.map traceOf)) x).map assigned).dedup.length ≤ 153391690) ∧
      ∀ x, occurrences (fps.map traceOf) x < 2 ^ 64 := by
  rw [← fits_iff]
  constructor
  · exact fun linked => ⟨linked.fits, linked.small⟩
  · rintro ⟨fits, small⟩ before fp after rfl k
    obtain ⟨⟨pairs, grown⟩, fewer⟩ := tracesTo_grows before fp after k
    rw [grown] at fits
    obtain ⟨s, run, represents⟩ := (readTo_computes before fp k).1 (fits_mono fits)
    exact ⟨s, run, represents.linked fun x => (fewer x).trans_lt (small x)⟩

/-! ### A chunk with many neighbours -/

def neighbour (i : Nat) : Fp :=
  Fp.ofBytes ([i % 255, i / 255 % 255, i / 255 ^ 2 % 255, i / 255 ^ 3 % 255, 0, 0].map fun digit => UInt8.ofNat (digit + 1))

def hub : Fp := Fp.ofBytes [1]

/-- A file with the chunk `hub` after each of `n` different chunks. -/
def crowded (n : Nat) : Bytes :=
  KMinhash.printed 8192 ((List.range n).flatMap fun i => [neighbour i, hub])

theorem neighbour_bytes (i : Nat) : (neighbour i).bytes =
    [i % 255, i / 255 % 255, i / 255 ^ 2 % 255, i / 255 ^ 3 % 255, 0, 0].map fun digit => UInt8.ofNat (digit + 1) :=
  Fp.ofBytes_eq rfl

theorem ofNat_succ_inj {m n : Nat} (same : UInt8.ofNat (m % 255 + 1) = UInt8.ofNat (n % 255 + 1)) : m % 255 = n % 255 := by
  have values := congrArg UInt8.toNat same
  simp only [UInt8.toNat_ofNat'] at values
  omega

theorem neighbour_injective {i j : Nat} (small : i < 255 ^ 4) (small' : j < 255 ^ 4)
    (same : (neighbour i).bytes = (neighbour j).bytes) : i = j := by
  simp only [neighbour_bytes, List.map_cons, List.map_nil, List.cons.injEq] at same
  have d₀ := ofNat_succ_inj same.1
  have d₁ := ofNat_succ_inj same.2.1
  have d₂ := ofNat_succ_inj same.2.2.1
  have d₃ := ofNat_succ_inj same.2.2.2.1
  omega

theorem assigned_neighbour (i : Nat) : assigned (neighbour i) = (neighbour i).bytes := by
  have visible : (0 : UInt8) ∉ (neighbour i).bytes := by
    rw [neighbour_bytes]
    intro zero
    obtain ⟨digit, listed, same⟩ := List.mem_map.mp zero
    have low : digit < 255 := by
      simp only [List.mem_cons, List.not_mem_nil, or_false] at listed
      omega
    have value := congrArg UInt8.toNat same
    simp only [UInt8.toNat_ofNat'] at value
    simp at value
    omega
  rw [assigned, cstr_of_not_mem visible, ← (neighbour i).size_eq, resize_length]

theorem mem_adjacent_append (before after : List Fp) (x y : Fp) : (x, y) ∈ adjacent (before ++ x :: y :: after) := by
  induction before with
  | nil => exact List.mem_cons_self
  | cons z before ih =>
    cases before with
    | nil => exact List.mem_cons_of_mem _ ih
    | cons w before => exact List.mem_cons_of_mem _ ih

theorem length_leftTable_crowded {n : Nat} (small : n ≤ 255 ^ 4) :
    n ≤ (leftTable (adjacents ([crowded n].map traceOf)) hub).length := by
  have trace : traceOf (crowded n) = (List.range n).flatMap fun i => [neighbour i, hub] := KMinhash.traceOf_chunks _ (by decide)
  have keys : (List.range n).map (fun i => (neighbour i).bytes) ⊆
      (predecessors (adjacents ([crowded n].map traceOf)) hub).map assigned := by
    intro key member
    obtain ⟨i, listed, rfl⟩ := List.mem_map.mp member
    obtain ⟨before, after, range⟩ := List.append_of_mem listed
    rw [← assigned_neighbour]
    apply List.mem_map_of_mem
    rw [mem_predecessors, adjacents, List.map_singleton, List.flatMap_singleton, trace, range, List.flatMap_append,
      List.flatMap_cons]
    exact mem_adjacent_append _ _ _ _
  have distinct : ((List.range n).map fun i => (neighbour i).bytes).Nodup := by
    refine List.nodup_range.map_on fun i listed j listed' same => ?_
    exact neighbour_injective ((List.mem_range.mp listed).trans_le small) ((List.mem_range.mp listed').trans_le small) same
  rw [leftTable, length_tally]
  calc n = ((List.range n).map fun i => (neighbour i).bytes).length := by simp
    _ ≤ _ := (List.subperm_of_subset distinct fun key member => List.mem_dedup.mpr (keys member)).length_le

/-- The search for the last neighbours goes behind what `int pos` can address. -/
theorem linked_crowded : ¬ LinkedThroughout [crowded (recordLimit + 2)] := by
  intro linked
  have short := (linked.fits hub).1
  have long := length_leftTable_crowded (n := recordLimit + 2) (by decide)
  omega

end EncryptedDedup.LocalityCount
