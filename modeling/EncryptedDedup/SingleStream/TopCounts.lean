import EncryptedDedup.SingleStream.NeighbourRanks

/-!
# The most frequent records

What the bounded heaps hold after `left_insert`, `right_insert` and `db_insert`, and where the walk over the
records of a value ends.
-/

namespace EncryptedDedup.Attack

variable (P : PriorityQueue Node cmp)

/-- The variables of the loop of `left_insert` and `right_insert`. -/
structure Walk where
  len : Nat
  pt : P.Heap

def recordLoop (value : Bytes) (k : Nat) : Loop (Walk P) where
  guard w := decide (w.len < value.length)
  body w := do
    let tmp ← load64 value (w.len + fpSize)
    let pt ← P.offer worse k w.pt ⟨Fp.ofBytes ((value.drop w.len).take fpSize), tmp⟩
    some ⟨w.len + recordSize, pt⟩

def entriesOf (value : Bytes) : List Node :=
  (cut recordSize value).map fun r => ⟨Fp.ofBytes (r.take fpSize), ofLE ((r.drop fpSize).take 8)⟩

def valueOf (xs : List Node) : Bytes := (xs.map fun n => n.key.bytes ++ u64 n.count).flatten

/-- The heap holds the `k` most frequent of the records, or all of them. -/
structure Top (k : Nat) (xs : List Node) (h : P.Heap) : Prop where
  size : P.size h = min k xs.length
  counts : (P.contents h).map Node.count = ((ranked id (xs.map Node.count)).take k : List Nat)
  best : ∃ dropped : Multiset Node, P.contents h + dropped = xs ∧ ∀ x ∈ P.contents h, ∀ y ∈ dropped, y.count ≤ x.count

variable {P}

/-! ### Values of whole records -/

theorem entriesOf_nil : entriesOf [] = [] := rfl

theorem entriesOf_cons {value : Bytes} (long : recordSize ≤ value.length) :
    entriesOf value =
      ⟨Fp.ofBytes (value.take fpSize), ofLE ((value.drop fpSize).take 8)⟩ :: entriesOf (value.drop recordSize) := by
  have filled : value ≠ [] := by
    rintro rfl
    exact absurd long (by decide)
  rw [entriesOf, cut_cons (by decide) filled, List.map_cons, List.take_take, List.drop_take, List.take_take]
  rfl

theorem load64_inside {value : Bytes} {pos : Nat} (inside : pos + 8 ≤ value.length) :
    load64 value pos = some (ofLE ((value.drop pos).take 8)) := by
  rw [load64, if_pos (Nat.le_succ_of_le inside), List.drop_append_of_le_length (by omega),
    List.take_append_of_le_length (by rw [List.length_drop]; omega)]

theorem records_whole {value : Bytes} (whole : recordSize ∣ value.length) : records value = some (entriesOf value) := by
  have each : ∀ (n fuel : Nat) (value : Bytes), value.length = n * recordSize → value.length ≤ fuel →
      recordsN fuel value = some (entriesOf value) := by
    intro n
    induction n with
    | zero =>
      intro fuel value length _
      rw [Nat.zero_mul] at length
      obtain rfl := List.eq_nil_of_length_eq_zero length
      cases fuel <;> rfl
    | succ n ih =>
      intro fuel value length enough
      have size : recordSize = fpSize + 8 := rfl
      rw [Nat.succ_mul] at length
      have long : recordSize ≤ value.length := by omega
      have rest : (value.drop recordSize).length = n * recordSize := by
        rw [List.length_drop]
        omega
      cases value with
      | nil => exact absurd long (by decide)
      | cons b value =>
        cases fuel with
        | zero => exact absurd enough (by simp)
        | succ fuel =>
          have shorter : ((b :: value).drop recordSize).length ≤ fuel := by
            rw [List.length_drop]
            omega
          unfold recordsN
          rw [load64_inside (by omega), entriesOf_cons long]
          dsimp only [Option.bind_eq_bind, Option.bind_some]
          rw [ih fuel _ rest shorter]
          rfl
  obtain ⟨n, length⟩ := whole
  exact each n value.length value (by rw [length, Nat.mul_comm]) (Nat.le_refl _)

/-! ### The walk -/

/-- The walk from a record on ends at the end of the value, with what is left of the records offered to the heap. -/
theorem recordLoop_rest {value : Bytes} {k n : Nat} {w : Walk P} {h : P.Heap} (left_ : value.length = w.len + n * recordSize)
    (kept : P.offerAll worse k w.pt (entriesOf (value.drop w.len)) = some h) {fuel : Nat} (enough : n ≤ fuel) :
    (recordLoop P value k).run fuel w = .finished ⟨value.length, h⟩ := by
  induction n generalizing w fuel with
  | zero =>
    rw [Nat.zero_mul, Nat.add_zero] at left_
    rw [← left_, List.drop_length, entriesOf_nil] at kept
    have stopped : (recordLoop P value k).guard w = false := decide_eq_false (by omega)
    rw [(recordLoop P value k).run_stopped stopped, left_]
    obtain rfl := Option.some.inj kept
    rfl
  | succ n ih =>
    have size : recordSize = fpSize + 8 := rfl
    rw [Nat.succ_mul] at left_
    have long : recordSize ≤ (value.drop w.len).length := by
      rw [List.length_drop]
      omega
    obtain ⟨fuel, rfl⟩ : ∃ m, fuel = m + 1 := ⟨fuel - 1, by omega⟩
    rw [entriesOf_cons long, PriorityQueue.offerAll, List.foldlM_cons] at kept
    obtain ⟨pt, offered, rest⟩ := Option.bind_eq_some_iff.mp kept
    rw [List.drop_drop, List.drop_drop] at *
    have guarded : (recordLoop P value k).guard w = true := decide_eq_true (by omega)
    have moved : (recordLoop P value k).body w = some ⟨w.len + recordSize, pt⟩ := by
      unfold recordLoop
      dsimp only
      rw [load64_inside (by omega)]
      dsimp only [Option.bind_eq_bind, Option.bind_some]
      rw [offered]
      rfl
    rw [(recordLoop P value k).run_next guarded moved]
    exact ih (w := ⟨w.len + recordSize, pt⟩) (by dsimp only; omega) rest (by omega)

/-! ### The heaps -/

theorem offerAll_top {k : Nat} (positive : 0 < k) {h : P.Heap} (empty : P.contents h = 0) (xs : List Node) :
    ∃ h', P.offerAll worse k h xs = some h' ∧ Top P k xs h' := by
  obtain ⟨h', kept⟩ := P.offerAll_isSome worse positive h xs
  have none : P.size h = 0 := by rw [PriorityQueue.size, empty, Multiset.card_zero]
  have within : P.size h ≤ k := none ▸ Nat.zero_le k
  have count : P.size h' = min k xs.length := by rw [P.offerAll_size within kept, none, Nat.zero_add]
  have none_left : P.Best Node.count k h 0 :=
    ⟨fun some_left => absurd rfl some_left, fun _ _ y member => absurd member (Multiset.notMem_zero y)⟩
  obtain ⟨dropped, best, whole⟩ := none_left.offerAll (fun _ _ => rfl) (fun _ _ => rfl) within kept
  rw [empty, Multiset.add_zero, Multiset.add_zero] at whole
  exact ⟨h', kept, count, best.keys (count ▸ Nat.min_le_left k _) whole, dropped, whole, best.above⟩

theorem length_valueOf (xs : List Node) : (valueOf xs).length = recordSize * xs.length := by
  induction xs with
  | nil => rfl
  | cons x xs ih =>
    have cell : (x.key.bytes ++ u64 x.count).length = recordSize := by
      rw [List.length_append, x.key.size_eq, length_u64]
      rfl
    rw [valueOf] at ih ⊢
    rw [List.map_cons, List.flatten_cons, List.length_append, cell, ih, List.length_cons, Nat.mul_succ, Nat.add_comm]

theorem entriesOf_valueOf {xs : List Node} (small : ∀ n ∈ xs, n.count < 2 ^ 64) : entriesOf (valueOf xs) = xs := by
  have wide : ∀ r ∈ xs.map fun n => n.key.bytes ++ u64 n.count, r.length = recordSize := by
    intro r member
    obtain ⟨n, -, rfl⟩ := List.mem_map.mp member
    rw [List.length_append, n.key.size_eq, length_u64]
    rfl
  rw [entriesOf, valueOf, cut_flatten (by decide) wide, List.map_map]
  refine (List.map_congr_left fun n member => ?_).trans (List.map_id xs)
  have long := n.key.size_eq
  have word : (u64 n.count).take 8 = u64 n.count := List.take_of_length_le (Nat.le_of_eq (length_u64 _))
  rw [Function.comp_apply, List.take_left' long, List.drop_left' long, word, ofLE_u64, Nat.mod_eq_of_lt (small n member),
    Fp.ofBytes_bytes]
  rfl

/-- The inserts keep the most frequent records, and the walk over a value of whole records ends where the value ends. -/
theorem inserts_top (P : PriorityQueue Node cmp) {k : Nat} (positive : 0 < k) {h : P.Heap} (empty : P.contents h = 0) :
    (∀ (d : Databases) (type : Side) (fp : Fp) (xs : List Node), neighbourList ((d.left type).get fp) = some xs →
      ∃ h', leftInsert P d type fp k h = some h' ∧ Top P k xs h') ∧
    (∀ (d : Databases) (type : Side) (fp : Fp) (xs : List Node), neighbourList ((d.right type).get fp) = some xs →
      ∃ h', rightInsert P d type fp k h = some h' ∧ Top P k xs h') ∧
    (∀ (db : OrderedMap Fp Bytes) (xs : List Node), db.entries.mapM nodeOf = some xs →
      ∃ h', dbInsert P db k h = some h' ∧ Top P k xs h') ∧
    (∀ value : Bytes, recordSize ∣ value.length → neighbourList (some value) = some (entriesOf value) ∧
      ∃ h', (recordLoop P value k).run value.length ⟨0, h⟩ = .finished ⟨value.length, h'⟩ ∧
        insertNeighbours P (some value) k h = some h') ∧
    ∀ xs : List Node, (∀ n ∈ xs, n.count < 2 ^ 64) → recordSize ∣ (valueOf xs).length ∧ entriesOf (valueOf xs) = xs := by
  have each : ∀ (existing : Option Bytes) (xs : List Node), neighbourList existing = some xs →
      ∃ h', insertNeighbours P existing k h = some h' ∧ Top P k xs h' := by
    intro existing xs read
    rw [insertNeighbours_list read]
    exact offerAll_top positive empty xs
  refine ⟨fun d type fp xs => each _ xs, fun d type fp xs => each _ xs, fun db xs read => ?_, fun value whole => ?_,
    fun xs small => ⟨⟨xs.length, length_valueOf xs⟩, entriesOf_valueOf small⟩⟩
  · obtain ⟨h', kept, top⟩ := offerAll_top positive empty xs
    refine ⟨h', ?_, top⟩
    rw [dbInsert, read]
    exact kept
  · have read : neighbourList (some value) = some (entriesOf value) := records_whole whole
    obtain ⟨h', kept, -⟩ := offerAll_top positive empty (entriesOf value)
    refine ⟨read, h', ?_, by rw [insertNeighbours_list read, kept]⟩
    obtain ⟨n, length⟩ := whole
    have few : n ≤ value.length := length ▸ Nat.le_mul_of_pos_left n (by decide)
    exact recordLoop_rest (w := ⟨0, h⟩) (by dsimp only; rw [length, Nat.zero_add, Nat.mul_comm]) kept few

/-- The two most frequent of three neighbours. -/
theorem inserts_top_two : ∃ h', rightInsert listHeap
    ⟨.empty, .empty, OrderedMap.empty.put (.ofBytes [1]) (valueOf [⟨.ofBytes [2], 3⟩, ⟨.ofBytes [3], 1⟩, ⟨.ofBytes [4], 2⟩]),
      .empty, .empty, .empty⟩ .o (.ofBytes [1]) 2 listHeap.empty = some h' ∧
    Top listHeap 2 [⟨.ofBytes [2], 3⟩, ⟨.ofBytes [3], 1⟩, ⟨.ofBytes [4], 2⟩] h' :=
  (inserts_top listHeap (by decide) listHeap.contents_empty).2.1 _ _ _ _ (by decide +kernel)

end EncryptedDedup.Attack
