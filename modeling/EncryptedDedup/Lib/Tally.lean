import Mathlib.Data.List.Dedup
import Mathlib.Data.List.Count
import Mathlib.Data.List.Induction
import Mathlib.Data.List.Perm.Subperm
import Mathlib.Algebra.BigOperators.Group.List.Basic
import Mathlib.Algebra.Ring.Nat

/-!
# Tallies

A tally lists the distinct elements of a sequence with their number of occurrences, in the order
in which they first occur.
-/

namespace EncryptedDedup

variable {κ : Type} [DecidableEq κ]

def bump (k : κ) : List (κ × Nat) → List (κ × Nat)
  | [] => [(k, 1)]
  | e :: t => if e.1 = k then (k, e.2 + 1) :: t else e :: bump k t

def tally (ks : List κ) : List (κ × Nat) := ks.foldl (fun t k => bump k t) []

@[simp] theorem tally_nil : tally ([] : List κ) = [] := rfl

theorem tally_concat (ks : List κ) (k : κ) : tally (ks ++ [k]) = bump k (tally ks) := by
  simp [tally]

theorem bump_ne_nil (k : κ) (t : List (κ × Nat)) : bump k t ≠ [] := by
  cases t with
  | nil => simp [bump]
  | cons e t =>
    rw [bump]
    split <;> simp

theorem bump_of_not_mem {k : κ} {t : List (κ × Nat)} (absent : k ∉ t.map Prod.fst) :
    bump k t = t ++ [(k, 1)] := by
  induction t with
  | nil => rfl
  | cons e t ih =>
    rw [List.map_cons, List.mem_cons, not_or] at absent
    rw [bump, if_neg (Ne.symm absent.1), ih absent.2, List.cons_append]

theorem bump_append_cons {k : κ} {n : Nat} {before after : List (κ × Nat)}
    (absent : k ∉ before.map Prod.fst) :
    bump k (before ++ (k, n) :: after) = before ++ (k, n + 1) :: after := by
  induction before with
  | nil => simp [bump]
  | cons e before ih =>
    rw [List.map_cons, List.mem_cons, not_or] at absent
    rw [List.cons_append, bump, if_neg (Ne.symm absent.1), ih absent.2, List.cons_append]

theorem exists_first_entry {k : κ} {t : List (κ × Nat)} (present : k ∈ t.map Prod.fst) :
    ∃ before n after, t = before ++ (k, n) :: after ∧ k ∉ before.map Prod.fst := by
  induction t with
  | nil => simp at present
  | cons e t ih =>
    by_cases hit : e.1 = k
    · exact ⟨[], e.2, t, by rw [← hit, List.nil_append], by simp⟩
    · rw [List.map_cons, List.mem_cons] at present
      obtain ⟨before, n, after, rfl, fresh⟩ := ih (present.resolve_left (Ne.symm hit))
      refine ⟨e :: before, n, after, rfl, ?_⟩
      rw [List.map_cons, List.mem_cons, not_or]
      exact ⟨Ne.symm hit, fresh⟩

theorem keys_bump (k : κ) (t : List (κ × Nat)) :
    (bump k t).map Prod.fst = if k ∈ t.map Prod.fst then t.map Prod.fst else t.map Prod.fst ++ [k] := by
  induction t with
  | nil => simp [bump]
  | cons e t ih =>
    rw [bump]
    split
    · rename_i same
      simp [same]
    · rename_i different
      rw [List.map_cons, ih, List.map_cons]
      by_cases present : k ∈ t.map Prod.fst
      · rw [if_pos present, if_pos (List.mem_cons_of_mem _ present)]
      · rw [if_neg present, if_neg (by simp [Ne.symm different] at present ⊢; exact present),
          List.cons_append]

theorem keys_tally_nodup (ks : List κ) : ((tally ks).map Prod.fst).Nodup := by
  induction ks using List.reverseRecOn with
  | nil => simp
  | append_singleton ks k ih =>
    rw [tally_concat, keys_bump]
    split
    · exact ih
    · rename_i absent
      exact List.nodup_append.mpr ⟨ih, List.nodup_singleton k, by
        intro a member b single same
        rw [List.mem_singleton.mp single] at same
        exact absent (same ▸ member)⟩

theorem mem_keys_tally (ks : List κ) (k : κ) : k ∈ (tally ks).map Prod.fst ↔ k ∈ ks := by
  induction ks using List.reverseRecOn with
  | nil => simp
  | append_singleton ks j ih =>
    rw [tally_concat, keys_bump, List.mem_append, List.mem_singleton]
    split
    · rename_i present
      rw [ih]
      constructor
      · exact Or.inl
      · rintro (old | rfl)
        · exact old
        · exact ih.mp present
    · rw [List.mem_append, List.mem_singleton, ih]

theorem mem_bump {k j : κ} {n : Nat} {t : List (κ × Nat)} (unique : (t.map Prod.fst).Nodup) :
    (j, n) ∈ bump k t ↔
      if j = k then (k ∉ t.map Prod.fst ∧ n = 1) ∨ ∃ m, (k, m) ∈ t ∧ n = m + 1 else (j, n) ∈ t := by
  induction t with
  | nil => by_cases same : j = k <;> simp [bump, same]
  | cons e t ih =>
    obtain ⟨i, m⟩ := e
    rw [List.map_cons] at unique
    obtain ⟨fresh, unique⟩ := List.nodup_cons.mp unique
    rw [bump]
    by_cases hit : i = k
    · subst hit
      rw [if_pos rfl, List.mem_cons]
      have gone : ∀ x, (i, x) ∉ t := fun x member => fresh (by simpa using ⟨x, member⟩)
      by_cases same : j = i
      · subst same
        simp [gone]
      · simp [same]
    · rw [if_neg hit, List.mem_cons, ih unique]
      by_cases same : j = k
      · subst same
        simp [Ne.symm hit]
      · simp [same]

theorem mem_tally {ks : List κ} {k : κ} {n : Nat} : (k, n) ∈ tally ks ↔ n = ks.count k ∧ 0 < n := by
  induction ks using List.reverseRecOn generalizing k n with
  | nil =>
    simp only [tally_nil, List.not_mem_nil, List.count_nil, false_iff, not_and]
    intro zero
    omega
  | append_singleton ks j ih =>
    rw [tally_concat, mem_bump (keys_tally_nodup ks), List.count_append]
    by_cases same : k = j
    · subst same
      rw [if_pos rfl, List.count_singleton_self, mem_keys_tally, ← List.count_eq_zero]
      simp only [ih]
      constructor
      · rintro (⟨none_yet, rfl⟩ | ⟨m, ⟨rfl, -⟩, rfl⟩)
        · exact ⟨by omega, by omega⟩
        · exact ⟨rfl, by omega⟩
      · rintro ⟨rfl, -⟩
        by_cases none_yet : ks.count k = 0
        · exact Or.inl ⟨none_yet, by omega⟩
        · exact Or.inr ⟨_, ⟨rfl, by omega⟩, rfl⟩
    · rw [if_neg same, ih, List.count_singleton, if_neg (by simpa using Ne.symm same), Nat.add_zero]

theorem le_length_of_mem_tally {ks : List κ} {e : κ × Nat} (member : e ∈ tally ks) :
    0 < e.2 ∧ e.2 ≤ ks.length := by
  obtain ⟨counted, positive⟩ := mem_tally.mp (show (e.1, e.2) ∈ tally ks from member)
  exact ⟨positive, counted ▸ List.count_le_length⟩

theorem mem_tally_map {ι : Type} [DecidableEq ι] {f : ι → κ} (injective : Function.Injective f)
    {ks : List ι} {k : ι} {n : Nat} : (f k, n) ∈ tally (ks.map f) ↔ n = ks.count k ∧ 0 < n := by
  rw [mem_tally, List.count_map_of_injective _ _ injective]

theorem sum_tally (ks : List κ) : ((tally ks).map Prod.snd).sum = ks.length := by
  have bumped : ∀ (k : κ) (t : List (κ × Nat)),
      ((bump k t).map Prod.snd).sum = (t.map Prod.snd).sum + 1 := by
    intro k t
    induction t with
    | nil => simp [bump]
    | cons e t ih =>
      rw [bump]
      split
      · simp only [List.map_cons, List.sum_cons]
        omega
      · simp only [List.map_cons, List.sum_cons, ih]
        omega
  induction ks using List.reverseRecOn with
  | nil => simp
  | append_singleton ks k ih => rw [tally_concat, bumped, ih, List.length_append, List.length_singleton]

theorem length_tally_mono {ks ls : List κ} (included : ks ⊆ ls) :
    (tally ks).length ≤ (tally ls).length := by
  have keys : (tally ks).map Prod.fst ⊆ (tally ls).map Prod.fst := by
    intro k member
    rw [mem_keys_tally] at member ⊢
    exact included member
  simpa using (List.subperm_of_subset (keys_tally_nodup ks) keys).length_le

theorem length_tally (ks : List κ) : (tally ks).length = ks.dedup.length := by
  rw [← List.length_map (f := Prod.fst)]
  apply List.Perm.length_eq
  rw [List.perm_ext_iff_of_nodup (keys_tally_nodup ks) (List.nodup_dedup ks)]
  intro k
  rw [mem_keys_tally, List.mem_dedup]

theorem bump_map {ι : Type} [DecidableEq ι] {f : ι → κ} {k : ι} {t : List (ι × Nat)}
    (injective : ∀ e ∈ t, f e.1 = f k → e.1 = k) : bump (f k) (t.map (Prod.map f id)) = (bump k t).map (Prod.map f id) := by
  induction t with
  | nil => rfl
  | cons e t ih =>
    rw [List.map_cons, bump, bump]
    have later := ih fun e member => injective e (List.mem_cons_of_mem _ member)
    have key : (Prod.map f id e).1 = f e.1 := rfl
    rw [key]
    by_cases hit : e.1 = k
    · rw [if_pos hit, if_pos (congrArg f hit)]
      rfl
    · rw [if_neg hit, if_neg fun same => hit (injective e List.mem_cons_self same), later]
      rfl

theorem tally_map {ι : Type} [DecidableEq ι] {f : ι → κ} {ks : List ι}
    (injective : ∀ a ∈ ks, ∀ b ∈ ks, f a = f b → a = b) : tally (ks.map f) = (tally ks).map (Prod.map f id) := by
  induction ks using List.reverseRecOn with
  | nil => rfl
  | append_singleton ks k ih =>
    rw [List.map_append, List.map_singleton, tally_concat, tally_concat,
      ih fun a inside b inside' => injective a (List.mem_append_left _ inside) b (List.mem_append_left _ inside')]
    refine bump_map fun e member same => ?_
    have key : e.1 ∈ ks := (mem_keys_tally ks e.1).mp (List.mem_map_of_mem member)
    exact injective e.1 (List.mem_append_left _ key) k (List.mem_append_right _ (List.mem_singleton_self k)) same

end EncryptedDedup
