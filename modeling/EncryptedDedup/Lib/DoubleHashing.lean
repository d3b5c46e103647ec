import EncryptedDedup.Lib.OpenAddressing
import Mathlib.Data.Nat.ModEq
import Mathlib.Data.Nat.Prime.Defs

/-!
# Double hashing

Walks around a table of prime size, from the home of a hash backwards in steps of one length.
-/

namespace EncryptedDedup.DoubleHashing

/-- The length of a step. A table of two slots has none; the walk that stays at home stands for it. -/
def step (size hash : Nat) : Nat := if size = 2 then 2 else 1 + hash % (size - 2)

def back (size step i : Nat) : Nat := if i < step then i + size - step else i - step

variable {size hash home i : Nat}

theorem step_bounds (two : 2 ≤ size) (hash : Nat) : 0 < step size hash ∧ step size hash ≤ size := by
  unfold step
  split
  · omega
  · have below := Nat.mod_lt hash (show 0 < size - 2 by omega)
    omega

theorem step_lt (two : 2 ≤ size) (more : size ≠ 2) (hash : Nat) : step size hash < size := by
  have below := Nat.mod_lt hash (show 0 < size - 2 by omega)
  rw [step, if_neg more]
  omega

theorem back_lt (two : 2 ≤ size) (hash : Nat) (inside : i < size) : back size (step size hash) i < size := by
  have bounds := step_bounds two hash
  unfold back
  split <;> omega

theorem back_home (hash : Nat) (two : size = 2) (inside : home < size) : back size (step size hash) home = home := by
  rw [back, step, if_pos two, if_pos (by omega)]
  omega

theorem back_mul {el : Nat} (positive : 0 < el) (s i : Nat) : back (size * el) (s * el) (i * el) = back size s i * el := by
  have less : i * el < s * el ↔ i < s := Nat.mul_lt_mul_right positive
  unfold back
  by_cases before : i < s
  · rw [if_pos (less.mpr before), if_pos before, Nat.sub_mul, Nat.add_mul]
  · rw [if_neg (mt less.mp before), if_neg before, Nat.sub_mul]

theorem iterate_back (two : 2 ≤ size) (hash home n : Nat) :
    ((back size (step size hash))^[n] home + n * step size hash) % size = home % size := by
  induction n with
  | zero => rw [Function.iterate_zero_apply, Nat.zero_mul, Nat.add_zero]
  | succ n ih =>
    have bounds := step_bounds two hash
    rw [Function.iterate_succ_apply', ← ih, Nat.succ_mul]
    generalize (back size (step size hash))^[n] home = i
    unfold back
    split
    · have turn : i + size - step size hash + (n * step size hash + step size hash) =
          i + n * step size hash + size := by omega
      rw [turn, Nat.add_mod_right]
    · congr 1
      omega

/-- A walk through a table of more than two slots meets every slot once. -/
theorem iterate_back_injOn (prime : size.Prime) (more : size ≠ 2) (hash home : Nat) {a b : Nat} (less : a < b)
    (within : b < size) : (back size (step size hash))^[a] home ≠ (back size (step size hash))^[b] home := by
  intro same
  have left := iterate_back prime.two_le hash home a
  have right := iterate_back prime.two_le hash home b
  rw [← same, ← left] at right
  have multiple := (Nat.modEq_iff_dvd' (Nat.add_le_add_left (Nat.mul_le_mul_right _ (Nat.le_of_lt less)) _)).mp right.symm
  rw [Nat.add_sub_add_left, ← Nat.sub_mul] at multiple
  rcases (Nat.Prime.dvd_mul prime).mp multiple with rounds | turn
  · exact absurd (Nat.le_of_dvd (by omega) rounds) (by omega)
  · exact absurd (Nat.le_of_dvd (step_bounds prime.two_le hash).1 turn) (Nat.not_le.mpr (step_lt prime.two_le more hash))

theorem iterate_back_away (prime : size.Prime) (more : size ≠ 2) (hash home l : Nat) (positive : 0 < l)
    (within : l < size) : (back size (step size hash))^[l] home ≠ home :=
  (iterate_back_injOn prime more hash home positive within).symm

theorem iterate_back_covers (prime : size.Prime) (more : size ≠ 2) (hash : Nat) (start : home < size)
    (inside : i < size) : ∃ n < size, (back size (step size hash))^[n] home = i := by
  have apart : Set.InjOn (fun n => (back size (step size hash))^[n] home) (Finset.range size) := by
    intro a memberA b memberB same
    rw [Finset.mem_coe, Finset.mem_range] at memberA memberB
    rcases Nat.lt_trichotomy a b with less | equal | greater
    · exact absurd same (iterate_back_injOn prime more hash home less memberB)
    · exact equal
    · exact absurd same.symm (iterate_back_injOn prime more hash home greater memberA)
  have stays : Set.MapsTo (fun n => (back size (step size hash))^[n] home) (Finset.range size) (Finset.range size) :=
    fun n _ => Finset.mem_coe.mpr (Finset.mem_range.mpr
      (OpenAddressing.iterate_lt start (fun j => back_lt prime.two_le hash) n))
  have onto := Finset.surjOn_of_injOn_of_card_le _ stays apart (Nat.le_refl _)
  obtain ⟨n, member, here⟩ := onto (Finset.mem_coe.mpr (Finset.mem_range.mpr inside))
  exact ⟨n, Finset.mem_range.mp (Finset.mem_coe.mp member), here⟩

end EncryptedDedup.DoubleHashing
