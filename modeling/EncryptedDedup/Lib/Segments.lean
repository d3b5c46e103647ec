import Mathlib.Algebra.Ring.Nat
import Mathlib.Algebra.BigOperators.Group.List.Basic
import Mathlib.Data.List.Chain

/-!
# Segments of bounded weight

A sequence is cut in front of every item that would make the open segment too heavy.
-/

namespace EncryptedDedup

variable {α : Type} (cap : Nat) (weight : α → Nat)

def weightOf (seg : List α) : Nat := (seg.map weight).sum

theorem weightOf_concat (seg : List α) (x : α) : weightOf weight (seg ++ [x]) = weightOf weight seg + weight x := by
  simp [weightOf]

/-- The segments of `open ++ items`, of which `open` is not to be cut. -/
def segments : List α → List α → List (List α)
  | seg, [] => [seg]
  | seg, x :: items =>
    if cap < weightOf weight seg + weight x then seg :: segments [x] items else segments (seg ++ [x]) items

/-- A cut that loses nothing, where a segment is too heavy only if it is one item, and no segment has
room for the item behind it. -/
structure Packing (items : List α) (segs : List (List α)) : Prop where
  flatten : segs.flatten = items
  filled : ∀ seg ∈ segs, seg ≠ []
  fits : ∀ seg ∈ segs, weightOf weight seg ≤ cap ∨ seg.length = 1
  maximal : segs.IsChain fun seg next => ∀ x ∈ next.head?, cap < weightOf weight seg + weight x

variable {cap weight}

theorem segments_head (seg items : List α) : ∃ more segs, segments cap weight seg items = (seg ++ more) :: segs := by
  induction items generalizing seg with
  | nil => exact ⟨[], [], by rw [List.append_nil, segments]⟩
  | cons x items ih =>
    rw [segments]
    split
    · exact ⟨[], _, by rw [List.append_nil]⟩
    · obtain ⟨more, segs, same⟩ := ih (seg ++ [x])
      exact ⟨x :: more, segs, by rw [same, List.append_assoc, List.singleton_append]⟩

theorem packing_segments {seg items : List α} (filled : seg ≠ []) (fits : weightOf weight seg ≤ cap ∨ seg.length = 1) :
    Packing cap weight (seg ++ items) (segments cap weight seg items) := by
  induction items generalizing seg with
  | nil =>
    rw [segments, List.append_nil]
    exact ⟨List.flatten_singleton, List.forall_mem_singleton.mpr filled, List.forall_mem_singleton.mpr fits,
      List.isChain_singleton seg⟩
  | cons x items ih =>
    rw [segments]
    split
    · rename_i full
      obtain ⟨flatten, others, othersFit, maximal⟩ := @ih [x] (List.cons_ne_nil _ _) (Or.inr rfl)
      refine ⟨by rw [List.flatten_cons, flatten, List.singleton_append], List.forall_mem_cons.mpr ⟨filled, others⟩,
        List.forall_mem_cons.mpr ⟨fits, othersFit⟩, ?_⟩
      obtain ⟨more, segs, same⟩ := @segments_head _ cap weight [x] items
      rw [same] at maximal ⊢
      refine List.isChain_cons_cons.mpr ⟨?_, maximal⟩
      intro y first
      rw [List.singleton_append, List.head?_cons, Option.mem_some_iff] at first
      rwa [← first]
    · rename_i room
      have grown := @ih (seg ++ [x]) (List.append_ne_nil_of_right_ne_nil _ (List.cons_ne_nil _ _))
        (Or.inl (by rw [weightOf_concat]; omega))
      rwa [List.append_assoc, List.singleton_append] at grown

theorem packing_cons (first : α) (rest : List α) :
    Packing cap weight (first :: rest) (segments cap weight [first] rest) :=
  packing_segments (List.cons_ne_nil first []) (Or.inr rfl)

theorem segments_weights (seg items : List α) :
    (segments cap weight seg items).map (List.map weight) = segments cap id (seg.map weight) (items.map weight) := by
  induction items generalizing seg with
  | nil => rfl
  | cons x items ih =>
    have same : weightOf id (seg.map weight) = weightOf weight seg := by rw [weightOf, List.map_id, weightOf]
    rw [segments, List.map_cons, segments, same, id]
    split
    · rw [List.map_cons, ih, List.map_singleton]
    · rw [ih, List.map_append, List.map_singleton]

theorem length_segments {seg items seg' items' : List α} (open_ : seg.map weight = seg'.map weight)
    (same : items.map weight = items'.map weight) :
    (segments cap weight seg items).map List.length = (segments cap weight seg' items').map List.length := by
  have lengths : ∀ segs : List (List α), segs.map List.length = (segs.map (List.map weight)).map List.length := by
    intro segs
    rw [List.map_map]
    exact List.map_congr_left fun seg _ => (List.length_map weight).symm
  rw [lengths, lengths, segments_weights, segments_weights, open_, same]

theorem length_segments_le (seg items : List α) : (segments cap weight seg items).length ≤ items.length + 1 := by
  induction items generalizing seg with
  | nil => exact Nat.le_refl _
  | cons x items ih =>
    rw [segments]
    split
    · exact Nat.succ_le_succ (ih [x])
    · exact (ih _).trans (Nat.le_succ _)

end EncryptedDedup
