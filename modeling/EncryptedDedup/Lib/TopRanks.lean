import EncryptedDedup.Lib.PriorityQueue
import Mathlib.Data.List.Sort
import Mathlib.Data.Multiset.MapFold

/-!
# The largest elements by rank

What a bounded queue keeps of elements that a key orders.
-/

namespace EncryptedDedup

/-- The elements with the largest key first. -/
def ranked {α β : Type} [LinearOrder β] (f : α → β) (xs : List α) : List α := xs.mergeSort fun a b => f b ≤ f a

section
variable {α β : Type} [LinearOrder β] {f : α → β}

theorem ranked_perm (xs : List α) : (ranked f xs).Perm xs := List.mergeSort_perm xs _

theorem length_ranked (xs : List α) : (ranked f xs).length = xs.length := (ranked_perm xs).length_eq

theorem ranked_ordered (xs : List α) : (ranked f xs).Pairwise fun a b => f b ≤ f a := by
  have sorted := @List.pairwise_mergeSort _ (fun a b => decide (f b ≤ f a)) (fun a b c first second => ?_)
    (fun a b => ?_) xs
  · exact sorted.imp of_decide_eq_true
  · rw [decide_eq_true_iff] at first second ⊢
    exact second.trans first
  · rw [Bool.or_eq_true, decide_eq_true_iff, decide_eq_true_iff]
    exact le_total (f b) (f a)

theorem eq_ranked {xs ys : List α} (distinct : (xs.map f).Nodup) (same : ys.Perm xs)
    (ordered : ys.Pairwise fun a b => f b ≤ f a) : ys = ranked f xs := by
  refine List.Perm.eq_of_pairwise ?_ ordered (ranked_ordered xs) (same.trans (ranked_perm xs).symm)
  intro a b onLeft onRight below above
  exact List.inj_on_of_nodup_map distinct (same.mem_iff.mp onLeft) ((ranked_perm xs).mem_iff.mp onRight)
    (le_antisymm above below)

theorem eq_ranked_id {xs ys : List β} (same : ys.Perm xs) (ordered : ys.Pairwise fun a b => b ≤ a) : ys = ranked id xs :=
  List.Perm.eq_of_pairwise (fun _ _ _ _ below above => le_antisymm above below) ordered (ranked_ordered xs)
    (same.trans (ranked_perm xs).symm)

end

theorem ranked_map {α γ β : Type} [LinearOrder β] {f : α → β} {g : γ → β} {r : α → γ} (keeps : ∀ x, g (r x) = f x)
    {xs : List α} {ys : List γ} (distinct : (xs.map f).Nodup) (same : ys.Perm (xs.map r)) :
    ranked g ys = (ranked f xs).map r := by
  have keys : ((xs.map r).map g) = xs.map f := by
    rw [List.map_map]
    exact List.map_congr_left fun x _ => keeps x
  refine (eq_ranked ?_ (((ranked_perm xs).map r).trans same.symm) ?_).symm
  · rw [(same.map g).nodup_iff, keys]
    exact distinct
  · rw [List.pairwise_map]
    refine (ranked_ordered xs).imp fun {a b} below => ?_
    rw [keeps, keeps]
    exact below

namespace PriorityQueue

variable {α β : Type} [LinearOrder β] {f : α → β} {less worse : α → α → Bool} {P : PriorityQueue α less}

/-- What was turned away is not above what is kept, and nothing is turned away before the queue is full. -/
structure Best (P : PriorityQueue α less) (f : α → β) (k : Nat) (h : P.Heap) (dropped : Multiset α) : Prop where
  full : dropped ≠ 0 → P.size h = k
  above : ∀ x ∈ P.contents h, ∀ y ∈ dropped, f y ≤ f x

theorem Best.keys {k : Nat} {h : P.Heap} {dropped : Multiset α} {xs : List α} (best : Best P f k h dropped)
    (within : P.size h ≤ k) (whole : P.contents h + dropped = xs) :
    Multiset.map f (P.contents h) = ((ranked id (xs.map f)).take k : List β) := by
  obtain ⟨rest, rfl⟩ := Quot.exists_rep dropped
  have together : (ranked f (P.drain h) ++ ranked f rest).Perm xs := by
    apply Multiset.coe_eq_coe.mp
    rw [← Multiset.coe_add, Multiset.coe_eq_coe.mpr (ranked_perm _), Multiset.coe_eq_coe.mpr (ranked_perm rest),
      P.drain_contents]
    exact whole
  have ordered : (ranked f (P.drain h) ++ ranked f rest).Pairwise fun a b => f b ≤ f a := by
    rw [List.pairwise_append]
    refine ⟨ranked_ordered _, ranked_ordered rest, fun x kept y turned => ?_⟩
    exact best.above x (P.mem_drain.mp ((ranked_perm _).mem_iff.mp kept)) y
      (Multiset.mem_coe.mpr ((ranked_perm rest).mem_iff.mp turned))
  have length : (ranked f (P.drain h)).length = P.size h := by rw [length_ranked, P.length_drain]
  have first : (ranked f (P.drain h) ++ ranked f rest).take k = ranked f (P.drain h) := by
    by_cases none_left : rest = []
    · have nothing : ranked f ([] : List α) = [] := List.mergeSort_nil
      rw [none_left, nothing, List.append_nil]
      exact List.take_of_length_le (by rw [length]; exact within)
    · have full := best.full fun empty => none_left ((Multiset.coe_eq_zero rest).mp empty)
      exact List.take_left' (length.trans full)
  rw [← eq_ranked_id (together.map f) (List.pairwise_map.mpr ordered), ← List.map_take, first, ← P.drain_contents,
    Multiset.map_coe, Multiset.coe_eq_coe]
  exact ((ranked_perm _).map f).symm

section
variable (smallest : ∀ a b, less a b = decide (f b < f a)) (larger : ∀ m x, worse m x = decide (f m < f x))
include smallest larger

theorem Best.offer {k : Nat} {h h' : P.Heap} {dropped : Multiset α} {x : α} (best : Best P f k h dropped)
    (within : P.size h ≤ k) (kept : P.offer worse k h x = some h') :
    ∃ dropped', Best P f k h' dropped' ∧ P.size h' ≤ k ∧
      P.contents h' + dropped' = x ::ₘ (P.contents h + dropped) := by
  rcases P.offer_contents kept with ⟨room, added⟩ | ⟨full, min, first, ⟨low, swapped⟩ | ⟨high, same⟩⟩
  · have none : dropped = 0 := by
      by_contra some
      exact absurd (best.full some) (Nat.ne_of_lt room)
    refine ⟨0, ⟨fun some => absurd rfl some, fun _ _ y member => absurd member (Multiset.notMem_zero y)⟩, ?_, ?_⟩
    · rw [size, added, Multiset.card_cons]
      exact room
    · rw [added, none, Multiset.cons_add]
  · have least : ∀ z ∈ P.contents h, f min ≤ f z := by
      intro z member
      have first' := P.top_first h min z first member
      rw [smallest] at first'
      exact not_lt.mp (of_decide_eq_false first')
    rw [larger, decide_eq_true_iff] at low
    have size_eq : P.size h' = P.size h := by
      have cards := congrArg Multiset.card swapped
      simpa [size] using cards
    -- the top goes, and it is not above any other
    have above : ∀ z ∈ P.contents h', f min ≤ f z := by
      intro z member
      have listed : z ∈ x ::ₘ P.contents h := by
        rw [← swapped]
        exact Multiset.mem_cons_of_mem member
      rcases Multiset.mem_cons.mp listed with rfl | old
      · exact low.le
      · exact least z old
    refine ⟨min ::ₘ dropped, ⟨fun _ => by omega, fun z kept' y member => ?_⟩, by omega, ?_⟩
    · rcases Multiset.mem_cons.mp member with rfl | old
      · exact above z kept'
      · exact (best.above min (P.top_mem first) y old).trans (above z kept')
    · rw [Multiset.add_cons, ← Multiset.cons_add, swapped, Multiset.cons_add]
  · have least : ∀ z ∈ P.contents h, f min ≤ f z := by
      intro z member
      have first' := P.top_first h min z first member
      rw [smallest] at first'
      exact not_lt.mp (of_decide_eq_false first')
    rw [larger] at high
    have low : f x ≤ f min := not_lt.mp (of_decide_eq_false high)
    have size_eq : P.size h' = P.size h := by rw [size, size, same]
    refine ⟨x ::ₘ dropped, ⟨fun _ => by omega, fun z kept' y member => ?_⟩, by omega, ?_⟩
    · rw [same] at kept'
      rcases Multiset.mem_cons.mp member with rfl | old
      · exact low.trans (least z kept')
      · exact best.above z kept' y old
    · rw [same, Multiset.add_cons]

theorem Best.offerAll {k : Nat} {h h' : P.Heap} {dropped : Multiset α} {xs : List α} (best : Best P f k h dropped)
    (within : P.size h ≤ k) (kept : P.offerAll worse k h xs = some h') :
    ∃ dropped', Best P f k h' dropped' ∧ P.contents h' + dropped' = xs + (P.contents h + dropped) := by
  induction xs generalizing h dropped with
  | nil =>
    obtain rfl := Option.some.inj kept
    exact ⟨dropped, best, by simp⟩
  | cons x xs ih =>
    rw [PriorityQueue.offerAll, List.foldlM_cons] at kept
    obtain ⟨h₁, first, rest⟩ := Option.bind_eq_some_iff.mp kept
    obtain ⟨dropped₁, best₁, within₁, whole₁⟩ := best.offer smallest larger within first
    obtain ⟨dropped', best', whole⟩ := ih best₁ within₁ rest
    refine ⟨dropped', best', ?_⟩
    rw [whole, whole₁, ← Multiset.cons_coe, Multiset.add_cons, Multiset.cons_add]

/-- A queue that keeps `k` elements ends with the first `k` ranks; the last of them leaves it first. -/
theorem drain_offerAll {k : Nat} {h : P.Heap} {xs : List α} (distinct : (xs.map f).Nodup)
    (kept : P.offerAll worse k P.empty xs = some h) : (P.drain h).reverse = (ranked f xs).take k := by
  have none : Best P f k P.empty 0 :=
    ⟨fun some => absurd rfl some, fun _ _ y member => absurd member (Multiset.notMem_zero y)⟩
  have within : P.size P.empty ≤ k := by
    rw [size_empty]
    exact Nat.zero_le k
  obtain ⟨dropped, best, whole⟩ := none.offerAll smallest larger within kept
  rw [P.contents_empty, Multiset.add_zero, Multiset.add_zero, ← P.drain_contents] at whole
  obtain ⟨rest, rfl⟩ := Quot.exists_rep dropped
  have together : ((P.drain h).reverse ++ ranked f rest).Perm xs := by
    apply Multiset.coe_eq_coe.mp
    rw [← Multiset.coe_add, Multiset.coe_reverse, Multiset.coe_eq_coe.mpr (ranked_perm rest)]
    exact whole
  have ordered : ((P.drain h).reverse ++ ranked f rest).Pairwise fun a b => f b ≤ f a := by
    rw [List.pairwise_append, List.pairwise_reverse]
    refine ⟨(P.drain_ordered h).imp fun first => ?_, ranked_ordered rest, fun x member y turned => ?_⟩
    · rw [smallest] at first
      exact not_lt.mp (of_decide_eq_false first)
    · exact best.above x (P.mem_drain.mp (List.mem_reverse.mp member)) y
        (Multiset.mem_coe.mpr ((ranked_perm rest).mem_iff.mp turned))
  have length : (P.drain h).reverse.length = min k xs.length := by
    rw [List.length_reverse, P.length_drain, P.offerAll_size within kept, size_empty, Nat.zero_add]
  rw [← eq_ranked distinct together ordered]
  by_cases short : xs.length ≤ k
  · have nothing : (ranked f rest).length = 0 := by
      have sum := together.length_eq
      rw [List.length_append, length] at sum
      omega
    rw [List.eq_nil_of_length_eq_zero nothing, List.append_nil, List.take_of_length_le (by omega)]
  · rw [List.take_append_of_le_length (by omega), List.take_of_length_le (by omega)]

end

end PriorityQueue

end EncryptedDedup
