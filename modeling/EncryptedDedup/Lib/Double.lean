import Mathlib.Data.Int.Log
import Mathlib.Data.Rat.Floor
import Mathlib.Algebra.Order.Round
import Mathlib.Tactic.Linarith
import Mathlib.Tactic.FieldSimp
import Mathlib.Tactic.Positivity

/-!
# Rounding of `double`

Values with 53 significant bits, rounded to the nearest one, and to the even one between two. The
exponents of large and small values are not bounded here.
-/

namespace EncryptedDedup.Double

def roundHalfEven (x : ℚ) : Int :=
  if Int.fract x < 1 / 2 then ⌊x⌋
  else if 1 / 2 < Int.fract x then ⌊x⌋ + 1
  else if 2 ∣ ⌊x⌋ then ⌊x⌋
  else ⌊x⌋ + 1

/-- The distance of two neighbours around `q`. -/
def ulp (q : ℚ) : ℚ := 2 ^ (Int.log 2 |q| - 52)

def round (q : ℚ) : ℚ := if q = 0 then 0 else roundHalfEven (q / ulp q) * ulp q

/-- The quotient of two integers that are rounded before. -/
def quotient (a c : Int) : ℚ := round (round a / round c)

theorem ulp_pos (q : ℚ) : 0 < ulp q := zpow_pos two_pos _

theorem abs_roundHalfEven_sub_le (x : ℚ) : |(roundHalfEven x : ℚ) - x| ≤ 1 / 2 := by
  have split := Int.floor_add_fract x
  have low := Int.fract_nonneg x
  have high := Int.fract_lt_one x
  rw [abs_le]
  unfold roundHalfEven
  split_ifs <;> push_cast <;> constructor <;> linarith

theorem roundHalfEven_intCast (n : Int) : roundHalfEven n = n := by
  rw [roundHalfEven, Int.fract_intCast, if_pos (by norm_num), Int.floor_intCast]

theorem round_nonneg {q : ℚ} (nonneg : 0 ≤ q) : 0 ≤ round q := by
  unfold round
  split
  · exact le_refl 0
  · have floor : 0 ≤ ⌊q / ulp q⌋ := Int.floor_nonneg.mpr (div_nonneg nonneg (ulp_pos q).le)
    have up : 0 ≤ roundHalfEven (q / ulp q) := by
      unfold roundHalfEven
      split_ifs <;> omega
    exact mul_nonneg (by exact_mod_cast up) (ulp_pos q).le

theorem quotient_nonneg {a c : Int} (low : 0 ≤ a) (positive : 0 ≤ c) : 0 ≤ quotient a c :=
  round_nonneg (div_nonneg (round_nonneg (by exact_mod_cast low)) (round_nonneg (by exact_mod_cast positive)))

theorem ulp_le {q : ℚ} (nonzero : q ≠ 0) : ulp q ≤ |q| / 2 ^ 52 := by
  have log := Int.zpow_log_le_self (b := 2) (r := |q|) (by norm_num) (abs_pos.mpr nonzero)
  rw [ulp, zpow_sub₀ two_ne_zero]
  push_cast at log
  exact div_le_div_of_nonneg_right log (by positivity)

theorem abs_round_sub_le (q : ℚ) : |round q - q| ≤ |q| / 2 ^ 53 := by
  by_cases zero : q = 0
  · simp [round, zero]
  · have positive := ulp_pos q
    have near := abs_roundHalfEven_sub_le (q / ulp q)
    have scaled : round q - q = (roundHalfEven (q / ulp q) - q / ulp q) * ulp q := by
      rw [round, if_neg zero]
      field_simp
    rw [scaled, abs_mul, abs_of_pos positive]
    calc |(roundHalfEven (q / ulp q) : ℚ) - q / ulp q| * ulp q ≤ 1 / 2 * ulp q :=
          mul_le_mul_of_nonneg_right near positive.le
      _ ≤ 1 / 2 * (|q| / 2 ^ 52) := mul_le_mul_of_nonneg_left (ulp_le zero) (by norm_num)
      _ = |q| / 2 ^ 53 := by ring

theorem round_intCast {n : Int} (small : |n| < 2 ^ 53) : round n = n := by
  by_cases zero : n = 0
  · rw [round, if_pos (by exact_mod_cast zero), zero]
    rfl
  · have nonzero : (n : ℚ) ≠ 0 := by exact_mod_cast zero
    have size : (1 : ℚ) ≤ |(n : ℚ)| := by exact_mod_cast Int.one_le_abs zero
    have log_low : 0 ≤ Int.log 2 |(n : ℚ)| := by
      rw [← Int.zpow_le_iff_le_log (by norm_num) (by linarith)]
      simpa using size
    have log_high : Int.log 2 |(n : ℚ)| < 53 := by
      rw [← Int.lt_zpow_iff_log_lt (by norm_num) (by linarith)]
      exact_mod_cast small
    obtain ⟨k, shift⟩ : ∃ k : Nat, (52 - Int.log 2 |(n : ℚ)|) = k := ⟨_, (Int.toNat_of_nonneg (by omega)).symm⟩
    have unit : ulp n = ((2 : ℚ) ^ k)⁻¹ := by
      rw [ulp, ← zpow_natCast, ← shift, ← zpow_neg]
      congr 1
      omega
    have whole : (n : ℚ) / ulp n = ((n * 2 ^ k : Int) : ℚ) := by
      rw [unit, div_inv_eq_mul]
      push_cast
      rfl
    rw [round, if_neg nonzero, whole, roundHalfEven_intCast, unit]
    push_cast
    field_simp

theorem quotient_eq {a c : Int} (smallA : |a| < 2 ^ 53) (smallC : |c| < 2 ^ 53) :
    quotient a c = round ((a : ℚ) / c) := by
  rw [quotient, round_intCast smallA, round_intCast smallC]

variable {a c : Int}

theorem quotient_side (low : 0 ≤ a) (high : a < 2 ^ 53) (positive : 0 < c) (small : c < 2 ^ 53) (n : Int) :
    (n ≤ quotient a c ↔ n * c ≤ a) ∧ (quotient a c ≤ n ↔ a ≤ n * c) := by
  rw [quotient_eq (by rw [abs_of_nonneg low]; exact high) (by rw [abs_of_pos positive]; exact small)]
  have divisor : (0 : ℚ) < c := by exact_mod_cast positive
  have nonneg : (0 : ℚ) ≤ a / c := div_nonneg (by exact_mod_cast low) divisor.le
  have near := abs_le.mp (abs_round_sub_le ((a : ℚ) / c))
  rw [abs_of_nonneg nonneg] at near
  -- Half the distance of the neighbours is less than one part in `c`.
  have step : (a : ℚ) / c / 2 ^ 53 < 1 / c := by
    have bits : (a : ℚ) < 2 ^ 53 := by exact_mod_cast high
    rw [div_div, mul_comm, ← div_div]
    exact div_lt_div_of_pos_right ((div_lt_one (by positivity)).mpr bits) divisor
  have exactly : a = n * c → round ((a : ℚ) / c) = n := by
    intro same
    have quotient : (a : ℚ) / c = n := by
      rw [same]
      push_cast
      field_simp
    have bounded : |n| < 2 ^ 53 := by
      have nonneg : 0 ≤ n := by
        by_contra negative
        have below : n * c < 0 := Int.mul_neg_of_neg_of_pos (by omega) positive
        omega
      have le : n * 1 ≤ n * c := Int.mul_le_mul_of_nonneg_left (by omega) nonneg
      rw [abs_of_nonneg nonneg]
      omega
    rw [quotient, round_intCast bounded]
  have above : n * c < a → (n : ℚ) < round ((a : ℚ) / c) := by
    intro less
    have gap : (n : ℚ) + 1 / c ≤ a / c := by
      rw [le_div_iff₀ divisor, add_mul, one_div, inv_mul_cancel₀ divisor.ne']
      exact_mod_cast less
    linarith [near.1]
  have under : a < n * c → round ((a : ℚ) / c) < n := by
    intro less
    have gap : (a : ℚ) / c + 1 / c ≤ n := by
      rw [← add_div, div_le_iff₀ divisor]
      exact_mod_cast less
    linarith [near.2]
  constructor
  · constructor
    · intro le
      by_contra less
      exact absurd (under (not_le.mp less)) (not_lt.mpr le)
    · intro le
      rcases le.lt_or_eq with less | same
      · exact (above less).le
      · exact (exactly same.symm).ge
  · constructor
    · intro le
      by_contra less
      exact absurd (above (not_le.mp less)) (not_lt.mpr le)
    · intro le
      rcases le.lt_or_eq with less | same
      · exact (under less).le
      · exact (exactly same).le

theorem floor_quotient (low : 0 ≤ a) (high : a < 2 ^ 53) (positive : 0 < c) (small : c < 2 ^ 53) :
    ⌊quotient a c⌋ = a / c := by
  apply le_antisymm
  · rw [Int.le_ediv_iff_mul_le positive]
    exact (quotient_side low high positive small _).1.mp (Int.floor_le _)
  · rw [Int.le_floor]
    exact (quotient_side low high positive small _).1.mpr (Int.ediv_mul_le a positive.ne')

theorem ceil_quotient (low : 0 ≤ a) (high : a < 2 ^ 53) (positive : 0 < c) (small : c < 2 ^ 53) :
    ⌈quotient a c⌉ = (a + c - 1) / c := by
  apply le_antisymm
  · rw [Int.ceil_le, (quotient_side low high positive small _).2]
    have split := Int.emod_add_mul_ediv (a + c - 1) c
    have rest := Int.emod_lt_of_pos (a + c - 1) positive
    rw [Int.mul_comm] at split
    omega
  · have up := (quotient_side low high positive small _).2.mp (Int.le_ceil (quotient a c))
    have below : a + c - 1 < (⌈quotient a c⌉ + 1) * c := by
      rw [add_mul, one_mul]
      omega
    exact Int.lt_add_one_iff.mp ((Int.ediv_lt_iff_lt_mul positive).mpr below)

end EncryptedDedup.Double
