import Mathlib.Data.Multiset.AddSub
import Mathlib.Data.Multiset.ZeroCons
import Mathlib.Logic.Function.Iterate

/-!
# Priority queues

A queue ordered by `less` hands out an element that is below no other one. Which of several such
elements it hands out is up to the implementation, so everything here holds for any of them.
-/

namespace EncryptedDedup

/-- An implementation of `priority_queue` with comparison `less`; `top` is undefined when empty. -/
structure PriorityQueue (α : Type) (less : α → α → Bool) where
  Heap : Type
  empty : Heap
  push : Heap → α → Heap
  top : Heap → Option α
  pop : Heap → Heap
  contents : Heap → Multiset α
  contents_empty : contents empty = 0
  contents_push (h : Heap) (x : α) : contents (push h x) = x ::ₘ contents h
  top_eq_none (h : Heap) : top h = none ↔ contents h = 0
  contents_pop (h : Heap) (m : α) : top h = some m → m ::ₘ contents (pop h) = contents h
  top_first (h : Heap) (m x : α) : top h = some m → x ∈ contents h → less m x = false

namespace PriorityQueue

variable {α : Type} {less : α → α → Bool} (P : PriorityQueue α less)

def size (h : P.Heap) : Nat := (P.contents h).card

theorem size_empty : P.size P.empty = 0 := by rw [size, P.contents_empty, Multiset.card_zero]

theorem size_pop {h : P.Heap} {m : α} (first : P.top h = some m) : P.size (P.pop h) + 1 = P.size h := by
  rw [size, size, ← P.contents_pop h m first, Multiset.card_cons]

theorem top_mem {h : P.Heap} {m : α} (first : P.top h = some m) : m ∈ P.contents h := by
  rw [← P.contents_pop h m first]
  exact Multiset.mem_cons_self _ _

theorem top_isSome {h : P.Heap} (filled : 0 < P.size h) : ∃ m, P.top h = some m := by
  cases first : P.top h with
  | some m => exact ⟨m, rfl⟩
  | none =>
    rw [size, (P.top_eq_none h).mp first, Multiset.card_zero] at filled
    exact absurd filled (Nat.lt_irrefl 0)

/-! ### Emptying a queue -/

def drainN : Nat → P.Heap → List α
  | 0, _ => []
  | n + 1, h =>
    match P.top h with
    | none => []
    | some m => m :: drainN n (P.pop h)

/-- The elements in the order in which `while (!q.empty()) q.pop()` removes them. -/
def drain (h : P.Heap) : List α := P.drainN (P.size h) h

theorem drainN_contents (n : Nat) (h : P.Heap) (enough : P.size h ≤ n) :
    (P.drainN n h : Multiset α) = P.contents h := by
  induction n generalizing h with
  | zero =>
    have none_left : P.contents h = 0 := Multiset.card_eq_zero.mp (Nat.le_zero.mp enough)
    rw [drainN, none_left, Multiset.coe_nil]
  | succ n ih =>
    rw [drainN]
    cases first : P.top h with
    | none => rw [(P.top_eq_none h).mp first, Multiset.coe_nil]
    | some m =>
      have shorter := P.size_pop first
      dsimp only
      rw [← Multiset.cons_coe, ih (P.pop h) (by omega), P.contents_pop h m first]

theorem drain_contents (h : P.Heap) : (P.drain h : Multiset α) = P.contents h :=
  P.drainN_contents (P.size h) h (Nat.le_refl _)

theorem mem_drain {h : P.Heap} {x : α} : x ∈ P.drain h ↔ x ∈ P.contents h := by
  rw [← P.drain_contents, Multiset.mem_coe]

theorem length_drain (h : P.Heap) : (P.drain h).length = P.size h := by
  rw [size, ← P.drain_contents, Multiset.coe_card]

theorem drainN_ordered (n : Nat) (h : P.Heap) :
    (P.drainN n h).Pairwise (fun a b => less a b = false) ∧ ∀ x ∈ P.drainN n h, x ∈ P.contents h := by
  induction n generalizing h with
  | zero => exact ⟨List.Pairwise.nil, fun x member => by simp [drainN] at member⟩
  | succ n ih =>
    rw [drainN]
    cases first : P.top h with
    | none => exact ⟨List.Pairwise.nil, fun x member => by simp at member⟩
    | some m =>
      obtain ⟨ordered, inside⟩ := ih (P.pop h)
      have before : ∀ x ∈ P.drainN n (P.pop h), x ∈ P.contents h := by
        intro x member
        rw [← P.contents_pop h m first]
        exact Multiset.mem_cons_of_mem (inside x member)
      refine ⟨List.pairwise_cons.mpr ⟨fun x member => ?_, ordered⟩, fun x member => ?_⟩
      · exact P.top_first h m x first (before x member)
      · rcases List.mem_cons.mp member with rfl | member
        · exact P.top_mem first
        · exact before x member

theorem drain_ordered (h : P.Heap) : (P.drain h).Pairwise (fun a b => less a b = false) :=
  (P.drainN_ordered (P.size h) h).1

theorem drainN_eq_take (n : Nat) (h : P.Heap) : P.drainN n h = (P.drain h).take n := by
  induction n generalizing h with
  | zero => rw [drainN, List.take_zero]
  | succ n ih =>
    rw [drainN]
    cases first : P.top h with
    | none =>
      have none_left : P.size h = 0 := by rw [size, (P.top_eq_none h).mp first, Multiset.card_zero]
      rw [drain, none_left, drainN, List.take_nil]
    | some m =>
      have shorter := P.size_pop first
      rw [drain, ← shorter, drainN, first]
      dsimp only
      rw [List.take_succ_cons, ih, drain]

theorem top_of_drain_nil {h : P.Heap} (empty : P.drain h = []) : P.top h = none := by
  rw [P.top_eq_none, ← P.drain_contents, empty, Multiset.coe_nil]

theorem drain_cons {h : P.Heap} {x : α} {xs : List α} (whole : P.drain h = x :: xs) :
    P.top h = some x ∧ P.drain (P.pop h) = xs := by
  have filled : 0 < P.size h := by
    rw [← P.length_drain, whole]
    exact Nat.succ_pos _
  obtain ⟨m, first⟩ := P.top_isSome filled
  rw [drain, ← P.size_pop first, drainN, first] at whole
  obtain ⟨rfl, rest⟩ := List.cons.inj whole
  exact ⟨first, rest⟩

/-- `while (!q.empty()) q.pop()`. -/
def clear (h : P.Heap) : P.Heap := (P.pop)^[P.size h] h

theorem contents_clear (h : P.Heap) : P.contents (P.clear h) = 0 := by
  have popped : ∀ n h, P.size h = n → P.contents (P.pop^[n] h) = 0 := by
    intro n
    induction n with
    | zero => exact fun h none_left => Multiset.card_eq_zero.mp none_left
    | succ n ih =>
      intro h size
      obtain ⟨m, first⟩ := P.top_isSome (h := h) (by omega)
      have shorter := P.size_pop first
      exact ih (P.pop h) (by omega)
  exact popped _ h rfl

/-! ### Keeping the largest elements -/

/-- Offer `x` to a queue that keeps `k` elements: once it is full, `x` replaces the top if the top
is `worse`. With `k = 0` an empty queue is asked for its top. -/
def offer (worse : α → α → Bool) (k : Nat) (h : P.Heap) (x : α) : Option P.Heap :=
  if P.size h < k then some (P.push h x)
  else do
    let min ← P.top h
    if worse min x then some (P.push (P.pop h) x) else some h

theorem offer_contents {worse : α → α → Bool} {k : Nat} {h h' : P.Heap} {x : α}
    (kept : P.offer worse k h x = some h') :
    (P.size h < k ∧ P.contents h' = x ::ₘ P.contents h) ∨
    (k ≤ P.size h ∧ ∃ min, P.top h = some min ∧
      (worse min x = true ∧ min ::ₘ P.contents h' = x ::ₘ P.contents h ∨
        worse min x = false ∧ P.contents h' = P.contents h)) := by
  rw [offer] at kept
  split at kept
  · rename_i room
    obtain rfl := Option.some.inj kept
    exact Or.inl ⟨room, P.contents_push h x⟩
  · rename_i full
    cases first : P.top h with
    | none => simp [first] at kept
    | some min =>
      refine Or.inr ⟨Nat.not_lt.mp full, min, rfl, ?_⟩
      simp only [first, Option.bind_eq_bind, Option.bind_some] at kept
      cases replace : worse min x with
      | true =>
        simp only [replace, if_true] at kept
        obtain rfl := Option.some.inj kept
        refine Or.inl ⟨rfl, ?_⟩
        rw [P.contents_push, Multiset.cons_swap, P.contents_pop h min first]
      | false =>
        simp only [replace, Bool.false_eq_true, if_false] at kept
        obtain rfl := Option.some.inj kept
        exact Or.inr ⟨rfl, rfl⟩

theorem offer_isSome (worse : α → α → Bool) {k : Nat} (positive : 0 < k) (h : P.Heap) (x : α) :
    ∃ h', P.offer worse k h x = some h' := by
  rw [offer]
  split
  · exact ⟨_, rfl⟩
  · rename_i full
    obtain ⟨min, first⟩ := P.top_isSome (h := h) (by omega)
    simp only [first, Option.bind_eq_bind, Option.bind_some]
    split
    · exact ⟨_, rfl⟩
    · exact ⟨_, rfl⟩

def offerAll (worse : α → α → Bool) (k : Nat) (h : P.Heap) (xs : List α) : Option P.Heap :=
  xs.foldlM (P.offer worse k) h

theorem offerAll_isSome (worse : α → α → Bool) {k : Nat} (positive : 0 < k) (h : P.Heap)
    (xs : List α) : ∃ h', P.offerAll worse k h xs = some h' := by
  induction xs generalizing h with
  | nil => exact ⟨h, rfl⟩
  | cons x xs ih =>
    obtain ⟨h₁, first⟩ := P.offer_isSome worse positive h x
    obtain ⟨h', rest⟩ := ih h₁
    exact ⟨h', by rw [offerAll, List.foldlM_cons, first]; exact rest⟩

theorem offerAll_le {worse : α → α → Bool} {k : Nat} {h h' : P.Heap} {xs : List α}
    (kept : P.offerAll worse k h xs = some h') : P.contents h' ≤ xs + P.contents h := by
  induction xs generalizing h with
  | nil =>
    obtain rfl := Option.some.inj kept
    simp
  | cons x xs ih =>
    rw [offerAll, List.foldlM_cons] at kept
    obtain ⟨h₁, first, rest⟩ := Option.bind_eq_some_iff.mp kept
    have step : P.contents h₁ ≤ x ::ₘ P.contents h := by
      rcases P.offer_contents first with ⟨-, added⟩ | ⟨-, min, -, ⟨-, swapped⟩ | ⟨-, same⟩⟩
      · exact added.le
      · rw [← swapped]
        exact Multiset.le_cons_self _ _
      · rw [same]
        exact Multiset.le_cons_self _ _
    calc P.contents h' ≤ xs + P.contents h₁ := ih rest
      _ ≤ xs + x ::ₘ P.contents h := Multiset.add_le_add_left step
      _ = (x :: xs : List α) + P.contents h := by
        rw [← Multiset.cons_coe, Multiset.add_cons, Multiset.cons_add]

theorem offerAll_size {worse : α → α → Bool} {k : Nat} {h h' : P.Heap} {xs : List α}
    (within : P.size h ≤ k) (kept : P.offerAll worse k h xs = some h') :
    P.size h' = min k (P.size h + xs.length) := by
  induction xs generalizing h with
  | nil =>
    obtain rfl := Option.some.inj kept
    rw [List.length_nil, Nat.add_zero, Nat.min_eq_right within]
  | cons x xs ih =>
    rw [offerAll, List.foldlM_cons] at kept
    obtain ⟨h₁, first, rest⟩ := Option.bind_eq_some_iff.mp kept
    rw [List.length_cons]
    rcases P.offer_contents first with ⟨room, added⟩ | ⟨full, min, -, ⟨-, swapped⟩ | ⟨-, same⟩⟩
    · have grown : P.size h₁ = P.size h + 1 := by rw [size, added, Multiset.card_cons, size]
      rw [ih (by omega) rest, grown]
      congr 1
      omega
    · have kept_size : P.size h₁ = P.size h := by
        have cards := congrArg Multiset.card swapped
        simpa [size] using cards
      rw [ih (by omega) rest, kept_size]
      omega
    · have kept_size : P.size h₁ = P.size h := by rw [size, same, size]
      rw [ih (by omega) rest, kept_size]
      omega

end PriorityQueue

/-! ### A queue that searches for its top -/

/-- The element that a left-to-right search keeps when it moves to every element it is below. -/
def selectFirst {α : Type} (less : α → α → Bool) : α → List α → α
  | m, [] => m
  | m, x :: xs => selectFirst less (if less m x then x else m) xs

section Selection

variable {α : Type} (less : α → α → Bool)

theorem selectFirst_mem (m : α) (xs : List α) : selectFirst less m xs ∈ m :: xs := by
  induction xs generalizing m with
  | nil => exact List.mem_singleton.mpr rfl
  | cons x xs ih =>
    rw [selectFirst]
    split
    · exact List.mem_cons_of_mem _ (ih x)
    · rcases List.mem_cons.mp (ih m) with same | later
      · rw [same]
        exact List.mem_cons_self
      · exact List.mem_cons_of_mem _ (List.mem_cons_of_mem _ later)

theorem selectFirst_first (irrefl : ∀ a, less a a = false)
    (trans : ∀ a b c, less a b = true → less b c = true → less a c = true)
    (seen : List α) (m : α) (xs : List α) (best : ∀ y ∈ seen, less m y = false) :
    ∀ y ∈ seen ++ m :: xs, less (selectFirst less m xs) y = false := by
  induction xs generalizing m seen with
  | nil =>
    intro y member
    rcases List.mem_append.mp member with before | here
    · exact best y before
    · rw [List.mem_singleton.mp here]
      exact irrefl m
  | cons x xs ih =>
    rw [selectFirst]
    split
    · rename_i below
      -- The new best element is below nothing the old one was not below.
      have better : ∀ y ∈ seen ++ [m], less x y = false := by
        intro y member
        rw [Bool.eq_false_iff]
        intro above
        have through := trans m x y below above
        rcases List.mem_append.mp member with before | here
        · rw [best y before] at through
          cases through
        · rw [List.mem_singleton.mp here, irrefl m] at through
          cases through
      have spread := ih (seen ++ [m]) x better
      intro y member
      exact spread y (by simpa using member)
    · rename_i notBelow
      have settled : ∀ y ∈ seen ++ [x], less m y = false := by
        intro y member
        rcases List.mem_append.mp member with before | here
        · exact best y before
        · rw [List.mem_singleton.mp here]
          exact Bool.eq_false_iff.mpr notBelow
      have spread := ih (seen ++ [x]) m settled
      intro y member
      apply spread y
      simp only [List.mem_append, List.mem_cons, List.not_mem_nil, or_false] at member ⊢
      tauto

variable [DecidableEq α]

def listQueue (irrefl : ∀ a, less a a = false)
    (trans : ∀ a b c, less a b = true → less b c = true → less a c = true) :
    PriorityQueue α less where
  Heap := List α
  empty := []
  push h x := x :: h
  top
    | [] => none
    | x :: xs => some (selectFirst less x xs)
  pop
    | [] => []
    | x :: xs => (x :: xs).erase (selectFirst less x xs)
  contents h := h
  contents_empty := rfl
  contents_push _ _ := rfl
  top_eq_none h := by cases h <;> simp
  contents_pop h m first := by
    cases h with
    | nil => simp at first
    | cons x xs =>
      obtain rfl := Option.some.inj first
      rw [Multiset.cons_coe, Multiset.coe_eq_coe]
      exact (List.perm_cons_erase (selectFirst_mem less x xs)).symm
  top_first h m y first member := by
    cases h with
    | nil => simp at first
    | cons x xs =>
      obtain rfl := Option.some.inj first
      exact selectFirst_first less irrefl trans [] x xs (by simp) y (by simpa using member)

end Selection

end EncryptedDedup
