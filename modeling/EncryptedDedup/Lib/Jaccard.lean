import Mathlib.Algebra.Order.Field.Rat
import Mathlib.Data.Finset.Card
import Mathlib.Tactic.FieldSimp
import Mathlib.Tactic.Positivity
import Mathlib.Tactic.Linarith

/-!
# The Jaccard distance of finite sets
-/

namespace EncryptedDedup

variable {α : Type} [DecidableEq α]

def jaccard (s t : Finset α) : ℚ := 1 - (s ∩ t).card / (s ∪ t).card

variable {s t : Finset α}

theorem jaccard_comm (s t : Finset α) : jaccard s t = jaccard t s := by
  rw [jaccard, jaccard, Finset.inter_comm, Finset.union_comm]

theorem card_inter_le_card_union (s t : Finset α) : (s ∩ t).card ≤ (s ∪ t).card :=
  Finset.card_le_card fun _ both => Finset.mem_union_left _ (Finset.mem_of_mem_inter_left both)

theorem jaccard_nonneg (s t : Finset α) : 0 ≤ jaccard s t := by
  have part : ((s ∩ t).card : ℚ) ≤ (s ∪ t).card := by exact_mod_cast card_inter_le_card_union s t
  have ratio := div_le_one_of_le₀ part (Nat.cast_nonneg _)
  unfold jaccard
  linarith

theorem jaccard_le_one (s t : Finset α) : jaccard s t ≤ 1 := by
  have ratio : (0 : ℚ) ≤ (s ∩ t).card / (s ∪ t).card := by positivity
  unfold jaccard
  linarith

theorem jaccard_eq_zero (filled : s.Nonempty) : jaccard s t = 0 ↔ s = t := by
  have inhabited : (s ∪ t).Nonempty := filled.mono Finset.subset_union_left
  have positive : ((s ∪ t).card : ℚ) ≠ 0 := by exact_mod_cast inhabited.card_pos.ne'
  rw [jaccard, sub_eq_zero, eq_comm, div_eq_one_iff_eq positive, Nat.cast_inj]
  constructor
  · intro cards
    have all : s ∩ t = s ∪ t := by
      apply Finset.eq_of_subset_of_card_le
      · exact fun _ both => Finset.mem_union_left _ (Finset.mem_of_mem_inter_left both)
      · exact cards.ge
    exact inf_eq_sup.mp all
  · rintro rfl
    rw [Finset.inter_self, Finset.union_self]

theorem jaccard_self (filled : s.Nonempty) : jaccard s s = 0 := (jaccard_eq_zero filled).mpr rfl

end EncryptedDedup
