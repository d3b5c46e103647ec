import EncryptedDedup.Lib.Bytes
import EncryptedDedup.Lib.OrderedMap
import Mathlib.Data.List.Count
import Mathlib.Data.List.Range

/-!
# Indices grouped by their labels

A store that has, under every label, the indices of the items with that label, as words put together.
-/

namespace EncryptedDedup

variable {κ : Type}

/-! ### The indices of a label -/

section
variable [DecidableEq κ]

def indicesOf (labels : List κ) (k : κ) : List Nat := (List.range labels.length).filter fun i => labels[i]? = some k

theorem mem_indicesOf {labels : List κ} {k : κ} {i : Nat} : i ∈ indicesOf labels k ↔ labels[i]? = some k := by
  unfold indicesOf
  rw [List.mem_filter, List.mem_range, decide_eq_true_iff]
  constructor
  · exact And.right
  · intro found
    obtain ⟨below, -⟩ := List.getElem?_eq_some_iff.mp found
    exact ⟨below, found⟩

theorem indicesOf_increasing (labels : List κ) (k : κ) : (indicesOf labels k).Pairwise (· < ·) :=
  List.Pairwise.filter _ List.pairwise_lt_range

theorem indicesOf_concat (labels : List κ) (k j : κ) :
    indicesOf (labels ++ [k]) j = if j = k then indicesOf labels j ++ [labels.length] else indicesOf labels j := by
  have before : ∀ i ∈ List.range labels.length, (labels ++ [k])[i]? = labels[i]? := by
    intro i member
    exact List.getElem?_append_left (List.mem_range.mp member)
  unfold indicesOf
  rw [List.length_append, List.length_singleton, List.range_succ, List.filter_append,
    List.filter_congr fun i member => by rw [before i member]]
  rw [List.filter_singleton, List.getElem?_append_right (Nat.le_refl _), Nat.sub_self]
  by_cases same : j = k
  · simp [same]
  · rw [if_neg same]
    simp [Ne.symm same]

theorem indicesOf_eq_nil {labels : List κ} {k : κ} : indicesOf labels k = [] ↔ k ∉ labels := by
  rw [List.eq_nil_iff_forall_not_mem]
  constructor
  · intro none member
    obtain ⟨i, below, found⟩ := List.getElem_of_mem member
    exact none i (mem_indicesOf.mpr (List.getElem?_eq_some_iff.mpr ⟨below, found⟩))
  · intro absent i member
    exact absent (List.mem_of_getElem? (mem_indicesOf.mp member))

theorem flatMap_indicesOf_perm {labels keys : List κ} (distinct : keys.Nodup) (known : ∀ k ∈ labels, k ∈ keys) :
    (keys.flatMap (indicesOf labels)).Perm (List.range labels.length) := by
  apply (List.perm_ext_iff_of_nodup ?_ List.nodup_range).mpr
  · intro i
    simp only [List.mem_flatMap, mem_indicesOf, List.mem_range]
    constructor
    · rintro ⟨k, -, found⟩
      exact (List.getElem?_eq_some_iff.mp found).1
    · intro below
      exact ⟨labels[i], known _ (List.getElem_mem below), List.getElem?_eq_getElem below⟩
  · apply List.nodup_flatMap.mpr
    refine ⟨fun k _ => (indicesOf_increasing labels k).nodup, ?_⟩
    apply List.Pairwise.imp ?_ distinct
    intro k j different i here there
    rw [mem_indicesOf] at here there
    exact different (Option.some.inj (here.symm.trans there))

end

/-! ### The store -/

def idsOf (value : Bytes) : List Nat := (cut 8 value).map ofLE

theorem idsOf_flatMap {ids : List Nat} (small : ∀ i ∈ ids, i < 2 ^ 64) : idsOf (ids.flatMap u64) = ids := by
  have wide : ∀ p ∈ ids.map u64, p.length = 8 := by
    intro p member
    obtain ⟨i, -, rfl⟩ := List.mem_map.mp member
    exact length_u64 i
  rw [idsOf, List.flatMap_def, cut_flatten (by decide) wide, List.map_map]
  have words : ∀ i ∈ ids, (ofLE ∘ u64) i = i := by
    intro i member
    rw [Function.comp_apply, ofLE_u64, Nat.mod_eq_of_lt (small i member)]
  rw [List.map_congr_left words, List.map_id']

variable [LinearOrder κ]

def appendId (db : OrderedMap κ Bytes) (k : κ) (id : Nat) : OrderedMap κ Bytes :=
  match db.get k with
  | some value => db.put k (value ++ u64 id)
  | none => db.put k (u64 id)

def Grouped (labels : List κ) (db : OrderedMap κ Bytes) : Prop :=
  ∀ k, db.get k = if k ∈ labels then some ((indicesOf labels k).flatMap u64) else none

theorem grouped_nil : Grouped ([] : List κ) .empty := by
  intro k
  rw [if_neg List.not_mem_nil]
  rfl

variable {labels : List κ} {db : OrderedMap κ Bytes}

theorem Grouped.append (grouped : Grouped labels db) (k : κ) :
    Grouped (labels ++ [k]) (appendId db k labels.length) := by
  have stored : (appendId db k labels.length) = db.put k ((indicesOf (labels ++ [k]) k).flatMap u64) := by
    unfold appendId
    rw [grouped k, indicesOf_concat, if_pos rfl, List.flatMap_append, List.flatMap_singleton]
    by_cases known : k ∈ labels
    · rw [if_pos known]
    · rw [if_neg known, indicesOf_eq_nil.mpr known]
      rfl
  intro j
  rw [stored, OrderedMap.get_put]
  by_cases same : j = k
  · rw [if_pos same, if_pos (by simp [same]), same]
  · rw [if_neg same, indicesOf_concat, if_neg same, grouped j]
    simp [same]

theorem Grouped.keys (grouped : Grouped labels db) (k : κ) : k ∈ db.keys ↔ k ∈ labels := by
  rw [OrderedMap.mem_keys, grouped k]
  by_cases known : k ∈ labels
  · simp [known]
  · simp [known]

theorem Grouped.ids (grouped : Grouped labels db) (few : labels.length ≤ 2 ^ 64) {k : κ} {value : Bytes}
    (found : db.get k = some value) : idsOf value = indicesOf labels k := by
  rw [grouped k] at found
  split at found
  · obtain rfl := Option.some.inj found
    apply idsOf_flatMap
    intro i member
    have below := (List.getElem?_eq_some_iff.mp (mem_indicesOf.mp member)).1
    omega
  · cases found

theorem Grouped.mem_ids (grouped : Grouped labels db) (few : labels.length ≤ 2 ^ 64) {k : κ} {value : Bytes}
    (found : db.get k = some value) (i : Nat) : i ∈ idsOf value ↔ labels[i]? = some k := by
  rw [grouped.ids few found, mem_indicesOf]

theorem Grouped.whole (grouped : Grouped labels db) (few : labels.length ≤ 2 ^ 64) {k : κ} {value : Bytes}
    (found : db.get k = some value) : value = (idsOf value).flatMap u64 := by
  rw [grouped.ids few found]
  rw [grouped k] at found
  split at found
  · exact (Option.some.inj found).symm
  · cases found

theorem Grouped.increasing (grouped : Grouped labels db) (few : labels.length ≤ 2 ^ 64) {k : κ} {value : Bytes}
    (found : db.get k = some value) : (idsOf value).Pairwise (· < ·) := by
  rw [grouped.ids few found]
  exact indicesOf_increasing labels k

theorem Grouped.partition (grouped : Grouped labels db) (few : labels.length ≤ 2 ^ 64) :
    (db.entries.flatMap fun e => idsOf e.2).Perm (List.range labels.length) := by
  have values : (db.entries.flatMap fun e => idsOf e.2) = db.keys.flatMap (indicesOf labels) := by
    rw [OrderedMap.keys, List.flatMap_map]
    apply List.flatMap_congr
    intro e member
    exact grouped.ids few ((OrderedMap.get_eq_some db e.1 e.2).mpr member)
  rw [values]
  exact flatMap_indicesOf_perm db.keys_nodup fun k known => (grouped.keys k).mpr known

end EncryptedDedup
