import Mathlib.Data.List.Induction
import Mathlib.Data.List.Nodup
import Mathlib.Order.Lattice

/-!
# Ordered key-value stores

A finite map whose entries are kept in strictly ascending key order, so that iterating it visits
every key once, smallest first.
-/

namespace EncryptedDedup

structure OrderedMap (κ ν : Type) [LinearOrder κ] where
  entries : List (κ × ν)
  sorted : entries.Pairwise (fun a b => a.1 < b.1)

namespace OrderedMap

variable {κ ν : Type} [LinearOrder κ]

instance instDecidableEqOrderedMap [DecidableEq ν] : DecidableEq (OrderedMap κ ν) := fun m m' =>
  decidable_of_iff (m.entries = m'.entries) ⟨fun same => by cases m; cases m'; cases same; rfl, congrArg entries⟩

def empty : OrderedMap κ ν := ⟨[], List.Pairwise.nil⟩

def get (m : OrderedMap κ ν) (k : κ) : Option ν :=
  (m.entries.find? (fun e => e.1 = k)).map Prod.snd

def contains (m : OrderedMap κ ν) (k : κ) : Bool := (m.get k).isSome

def keys (m : OrderedMap κ ν) : List κ := m.entries.map Prod.fst

/-- Place `(k, v)` in key order, replacing an entry with the same key. -/
def insertEntry (k : κ) (v : ν) : List (κ × ν) → List (κ × ν)
  | [] => [(k, v)]
  | e :: rest =>
    if k < e.1 then (k, v) :: e :: rest
    else if k = e.1 then (k, v) :: rest
    else e :: insertEntry k v rest

theorem mem_insertEntry {k : κ} {v : ν} {l : List (κ × ν)}
    (sorted : l.Pairwise (fun a b => a.1 < b.1)) (x : κ × ν) :
    x ∈ insertEntry k v l ↔ x = (k, v) ∨ x ∈ l ∧ x.1 ≠ k := by
  induction l with
  | nil => simp [insertEntry]
  | cons e rest ih =>
    obtain ⟨first, tail⟩ := List.pairwise_cons.mp sorted
    rw [insertEntry]
    split
    · rename_i below
      have apart : ∀ y ∈ e :: rest, y.1 ≠ k := by
        intro y member
        rcases List.mem_cons.mp member with rfl | later
        · exact ne_of_gt below
        · exact ne_of_gt (lt_trans below (first y later))
      rw [List.mem_cons]
      exact or_congr_right ⟨fun member => ⟨member, apart x member⟩, fun both => both.1⟩
    · split
      · rename_i same
        rw [List.mem_cons, List.mem_cons]
        refine or_congr_right ⟨fun member => ⟨Or.inr member, ?_⟩, ?_⟩
        · exact same ▸ ne_of_gt (first x member)
        · rintro ⟨rfl | member, other⟩
          · exact absurd same.symm other
          · exact member
      · rename_i different
        rw [List.mem_cons, ih tail, List.mem_cons]
        constructor
        · rintro (rfl | new | ⟨member, other⟩)
          · exact Or.inr ⟨Or.inl rfl, Ne.symm different⟩
          · exact Or.inl new
          · exact Or.inr ⟨Or.inr member, other⟩
        · rintro (new | ⟨rfl | member, other⟩)
          · exact Or.inr (Or.inl new)
          · exact Or.inl rfl
          · exact Or.inr (Or.inr ⟨member, other⟩)

theorem insertEntry_sorted {k : κ} {v : ν} {l : List (κ × ν)}
    (sorted : l.Pairwise (fun a b => a.1 < b.1)) :
    (insertEntry k v l).Pairwise (fun a b => a.1 < b.1) := by
  induction l with
  | nil => exact List.pairwise_singleton _ _
  | cons e rest ih =>
    obtain ⟨first, tail⟩ := List.pairwise_cons.mp sorted
    rw [insertEntry]
    split
    · rename_i below
      refine List.pairwise_cons.mpr ⟨?_, sorted⟩
      intro y member
      rcases List.mem_cons.mp member with rfl | later
      · exact below
      · exact lt_trans below (first y later)
    · split
      · rename_i same
        exact List.pairwise_cons.mpr ⟨fun y member => same ▸ first y member, tail⟩
      · rename_i above different
        refine List.pairwise_cons.mpr ⟨?_, ih tail⟩
        intro y member
        rcases (mem_insertEntry tail y).mp member with rfl | ⟨later, -⟩
        · exact lt_of_le_of_ne (not_lt.mp above) (Ne.symm different)
        · exact first y later

def put (m : OrderedMap κ ν) (k : κ) (v : ν) : OrderedMap κ ν :=
  ⟨insertEntry k v m.entries, insertEntry_sorted m.sorted⟩

def delete (m : OrderedMap κ ν) (k : κ) : OrderedMap κ ν :=
  ⟨m.entries.filter (fun e => e.1 ≠ k), m.sorted.filter _⟩

theorem keys_nodup (m : OrderedMap κ ν) : m.keys.Nodup :=
  List.pairwise_map.mpr (m.sorted.imp fun below => ne_of_lt below)

theorem entry_unique {m : OrderedMap κ ν} {k : κ} {v w : ν} (hv : (k, v) ∈ m.entries)
    (hw : (k, w) ∈ m.entries) : v = w :=
  (Prod.mk.inj (List.inj_on_of_nodup_map m.keys_nodup hv hw rfl)).2

theorem get_eq_some (m : OrderedMap κ ν) (k : κ) (v : ν) :
    m.get k = some v ↔ (k, v) ∈ m.entries := by
  rw [get]
  constructor
  · intro found
    obtain ⟨⟨k', v'⟩, hit, rfl⟩ := Option.map_eq_some_iff.mp found
    have same : k' = k := by simpa using List.find?_some hit
    exact same ▸ List.mem_of_find?_eq_some hit
  · intro member
    cases hit : m.entries.find? (fun e => e.1 = k) with
    | none =>
      have different : ¬ k = k := by simpa using List.find?_eq_none.mp hit _ member
      exact absurd rfl different
    | some e =>
      obtain ⟨k', v'⟩ := e
      have same : k' = k := by simpa using List.find?_some hit
      subst same
      rw [Option.map_some, entry_unique (List.mem_of_find?_eq_some hit) member]

theorem mem_keys {m : OrderedMap κ ν} {k : κ} : k ∈ m.keys ↔ ∃ v, m.get k = some v := by
  simp only [keys, List.mem_map, Prod.exists, exists_and_right, exists_eq_right, get_eq_some]

theorem contains_iff {m : OrderedMap κ ν} {k : κ} : m.contains k = true ↔ k ∈ m.keys := by
  rw [contains, Option.isSome_iff_exists, mem_keys]

theorem get_eq_none {m : OrderedMap κ ν} {k : κ} : m.get k = none ↔ k ∉ m.keys := by
  rw [mem_keys, Option.eq_none_iff_forall_ne_some, not_exists]

@[simp] theorem get_empty (k : κ) : (empty : OrderedMap κ ν).get k = none := rfl

@[simp] theorem get_put_same (m : OrderedMap κ ν) (k : κ) (v : ν) : (m.put k v).get k = some v := by
  rw [get_eq_some, put, mem_insertEntry m.sorted]
  exact Or.inl rfl

theorem get_put_other (m : OrderedMap κ ν) {k k' : κ} (v : ν) (different : k' ≠ k) :
    (m.put k v).get k' = m.get k' := by
  apply Option.ext
  intro w
  rw [get_eq_some, get_eq_some, put, mem_insertEntry m.sorted]
  simp [different]

theorem get_put (m : OrderedMap κ ν) (k k' : κ) (v : ν) :
    (m.put k v).get k' = if k' = k then some v else m.get k' := by
  split
  · rename_i same
    rw [same, get_put_same]
  · exact get_put_other m v ‹_›

theorem get_delete_other (m : OrderedMap κ ν) {k k' : κ} (different : k' ≠ k) :
    (m.delete k).get k' = m.get k' := by
  apply Option.ext
  intro w
  rw [get_eq_some, get_eq_some, delete, List.mem_filter]
  simp [different]

theorem get_delete (m : OrderedMap κ ν) (k k' : κ) : (m.delete k).get k' = if k' = k then none else m.get k' := by
  split
  · rename_i same
    rw [same, get_eq_none, keys, delete, List.mem_map]
    rintro ⟨e, member, rfl⟩
    exact absurd rfl (of_decide_eq_true (List.mem_filter.mp member).2)
  · exact get_delete_other m ‹_›

theorem get_put_delete (m : OrderedMap κ ν) (k k' : κ) (v : ν) :
    ((m.delete k).put k v).get k' = if k' = k then some v else m.get k' := by
  rw [get_put]
  split
  · rfl
  · exact get_delete_other m ‹_›

theorem mem_keys_put {m : OrderedMap κ ν} {k k' : κ} {v : ν} :
    k' ∈ (m.put k v).keys ↔ k' = k ∨ k' ∈ m.keys := by
  rw [mem_keys, mem_keys, get_put]
  split
  · rename_i same
    simp [same]
  · rename_i different
    simp [different]

theorem ext_get {m m' : OrderedMap κ ν} (same : ∀ k, m.get k = m'.get k) : m = m' := by
  have distinct : ∀ l : OrderedMap κ ν, l.entries.Nodup := fun l => List.Nodup.of_map Prod.fst l.keys_nodup
  have permuted : m.entries.Perm m'.entries := by
    rw [List.perm_ext_iff_of_nodup (distinct m) (distinct m')]
    intro e
    rw [← get_eq_some m e.1 e.2, ← get_eq_some m' e.1 e.2, same]
  have equal := permuted.eq_of_pairwise (fun _ _ _ _ below above => absurd above (lt_asymm below)) m.sorted m'.sorted
  cases m
  cases m'
  cases equal
  rfl

theorem insertEntry_last {k : κ} {v : ν} {l : List (κ × ν)} (below : ∀ e ∈ l, e.1 < k) :
    insertEntry k v l = l ++ [(k, v)] := by
  induction l with
  | nil => rfl
  | cons e rest ih =>
    have first := below e List.mem_cons_self
    rw [insertEntry, if_neg (lt_asymm first), if_neg (ne_of_gt first),
      ih fun e member => below e (List.mem_cons_of_mem _ member), List.cons_append]

theorem entries_put_last {m : OrderedMap κ ν} {k : κ} {v : ν} (below : ∀ e ∈ m.entries, e.1 < k) :
    (m.put k v).entries = m.entries ++ [(k, v)] := insertEntry_last below

/-! ### The entry at or below a key -/

/-- The entry with the greatest key that is not above `k`. -/
def floorEntry (m : OrderedMap κ ν) (k : κ) : Option (κ × ν) := (m.entries.filter fun e => e.1 ≤ k).getLast?

theorem floorEntry_eq_some {m : OrderedMap κ ν} {k j : κ} {v : ν} (found : m.floorEntry k = some (j, v)) :
    m.get j = some v ∧ j ≤ k ∧ ∀ i w, m.get i = some w → i ≤ k → i ≤ j := by
  obtain ⟨front, split⟩ := List.getLast?_eq_some_iff.mp found
  have member : (j, v) ∈ m.entries.filter fun e => e.1 ≤ k := by
    rw [split]
    exact List.mem_append_right _ List.mem_cons_self
  obtain ⟨inside, below⟩ := List.mem_filter.mp member
  refine ⟨(get_eq_some m j v).mpr inside, of_decide_eq_true below, fun i w known under => ?_⟩
  have listed : (i, w) ∈ m.entries.filter fun e => e.1 ≤ k :=
    List.mem_filter.mpr ⟨(get_eq_some m i w).mp known, decide_eq_true under⟩
  have ordered := m.sorted.filter fun e => e.1 ≤ k
  rw [split] at listed ordered
  rcases List.mem_append.mp listed with before | last
  · exact le_of_lt ((List.pairwise_append.mp ordered).2.2 _ before _ List.mem_cons_self)
  · exact le_of_eq (congrArg Prod.fst (List.mem_singleton.mp last))

theorem floorEntry_eq_none {m : OrderedMap κ ν} {k : κ} (empty : m.floorEntry k = none) {i : κ} {w : ν}
    (known : m.get i = some w) : k < i := by
  by_contra under
  have listed : (i, w) ∈ m.entries.filter fun e => e.1 ≤ k :=
    List.mem_filter.mpr ⟨(get_eq_some m i w).mp known, decide_eq_true (not_lt.mp under)⟩
  rw [List.getLast?_eq_none_iff.mp empty] at listed
  exact absurd listed List.not_mem_nil

theorem floorEntry_of_greatest {m : OrderedMap κ ν} {k j : κ} {v : ν} (known : m.get j = some v) (below : j ≤ k)
    (greatest : ∀ i w, m.get i = some w → i ≤ k → i ≤ j) : m.floorEntry k = some (j, v) := by
  cases found : m.floorEntry k with
  | none => exact absurd (floorEntry_eq_none found known) (not_lt.mpr below)
  | some e =>
    obtain ⟨i, w⟩ := e
    obtain ⟨stored, under, most⟩ := floorEntry_eq_some found
    obtain rfl := le_antisymm (greatest i w stored under) (most j v known below)
    rw [stored] at known
    rw [Option.some.inj known]

/-! ### Storing many entries -/

def putAll (m : OrderedMap κ ν) (l : List (κ × ν)) : OrderedMap κ ν := l.foldl (fun m e => m.put e.1 e.2) m

theorem mem_keys_putAll {m : OrderedMap κ ν} {l : List (κ × ν)} {k : κ} :
    k ∈ (m.putAll l).keys ↔ k ∈ m.keys ∨ k ∈ l.map Prod.fst := by
  unfold putAll
  induction l generalizing m with
  | nil => simp
  | cons e l ih =>
    rw [List.foldl_cons, ih, mem_keys_put, List.map_cons, List.mem_cons]
    tauto

theorem get_putAll_of_eq {m : OrderedMap κ ν} {l : List (κ × ν)} {f : κ → ν} (determined : ∀ e ∈ l, e.2 = f e.1) {k : κ}
    (stored : k ∈ l.map Prod.fst) : (m.putAll l).get k = some (f k) := by
  unfold putAll
  induction l using List.reverseRecOn generalizing m with
  | nil => cases stored
  | append_singleton l e ih =>
    rw [List.foldl_append, List.foldl_cons, List.foldl_nil, get_put]
    split
    · rename_i same
      rw [determined e (List.mem_append_right _ List.mem_cons_self), same]
    · rename_i other
      rw [List.map_append, List.mem_append] at stored
      have before := stored.resolve_right fun last => other (List.mem_singleton.mp last)
      exact ih (fun e member => determined e (List.mem_append_left _ member)) before

theorem entries_put_new {m : OrderedMap κ ν} {k : κ} (fresh : k ∉ m.keys) (v : ν) :
    (m.put k v).entries.Perm (m.entries ++ [(k, v)]) := by
  have distinct : (m.entries ++ [(k, v)]).Nodup := by
    rw [List.nodup_append]
    refine ⟨List.Nodup.of_map Prod.fst m.keys_nodup, List.nodup_singleton _, ?_⟩
    rintro e known e' last rfl
    rw [List.mem_singleton.mp last] at known
    exact fresh (List.mem_map_of_mem known)
  apply (List.perm_ext_iff_of_nodup (List.Nodup.of_map Prod.fst (m.put k v).keys_nodup) distinct).mpr
  rintro ⟨i, w⟩
  rw [← get_eq_some, get_put, List.mem_append, List.mem_singleton, Prod.mk.injEq, ← get_eq_some]
  by_cases same : i = k
  · have absent : m.get i = none := get_eq_none.mpr (same ▸ fresh)
    rw [if_pos same, absent]
    simp [same, eq_comm]
  · rw [if_neg same]
    simp [same]

theorem length_put_new {m : OrderedMap κ ν} {k : κ} {v : ν} (fresh : k ∉ m.keys) :
    (m.put k v).entries.length = m.entries.length + 1 := by
  rw [(entries_put_new fresh v).length_eq, List.length_append, List.length_singleton]

theorem entries_perm {m : OrderedMap κ ν} {ks : List κ} {value : κ → ν} (distinct : ks.Nodup)
    (stored : ∀ k v, m.get k = some v ↔ k ∈ ks ∧ value k = v) : m.entries.Perm (ks.map fun k => (k, value k)) := by
  apply (List.perm_ext_iff_of_nodup (List.Nodup.of_map _ m.keys_nodup) ?_).mpr
  · rintro ⟨k, v⟩
    rw [← get_eq_some, stored k v, List.mem_map]
    constructor
    · rintro ⟨known, rfl⟩
      exact ⟨k, known, rfl⟩
    · rintro ⟨k', known, same⟩
      cases same
      exact ⟨known, rfl⟩
  · exact distinct.map fun _ _ same => (Prod.mk.inj same).1

theorem length_put_old {m : OrderedMap κ ν} {k : κ} {v : ν} (known : k ∈ m.keys) :
    (m.put k v).entries.length = m.entries.length := by
  have same : (m.put k v).keys.Perm m.keys := by
    apply (List.perm_ext_iff_of_nodup (m.put k v).keys_nodup m.keys_nodup).mpr
    intro j
    rw [mem_keys_put]
    constructor
    · rintro (rfl | before)
      · exact known
      · exact before
    · exact Or.inr
  have lengths := same.length_eq
  rwa [keys, keys, List.length_map, List.length_map] at lengths

theorem length_putAll {m : OrderedMap κ ν} {l : List (κ × ν)} (distinct : (l.map Prod.fst).Nodup)
    (fresh : ∀ e ∈ l, e.1 ∉ m.keys) : (m.putAll l).entries.length = m.entries.length + l.length := by
  unfold putAll
  induction l generalizing m with
  | nil => rfl
  | cons e l ih =>
    rw [List.map_cons, List.nodup_cons] at distinct
    have fresh' : ∀ e' ∈ l, e'.1 ∉ (m.put e.1 e.2).keys := by
      intro e' member
      rw [mem_keys_put, not_or]
      exact ⟨fun same => distinct.1 (same ▸ List.mem_map_of_mem member), fresh e' (List.mem_cons_of_mem _ member)⟩
    rw [List.foldl_cons, ih distinct.2 fresh', length_put_new (fresh e List.mem_cons_self), List.length_cons]
    omega

end OrderedMap

end EncryptedDedup
