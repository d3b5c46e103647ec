import EncryptedDedup.Lib.Loop
import Mathlib.NumberTheory.Bertrand

/-!
# `NextPrime`

The sizes of the tables are primes, which are found by trial division.
-/

namespace EncryptedDedup.SDFS.NextPrime

/-- The loop over `j`, for at most so many turns. -/
def trial (i root : Nat) : Bool → Nat → Nat → Bool
  | isPrime, _, 0 => isPrime
  | isPrime, j, n + 1 =>
    if root < j then isPrime
    else if i = i / j * j then false
    else trial i root (if j = root then true else isPrime) (j + 1) n

/-- The loop over `i`, for at most so many turns. -/
def search : Bool → Nat → Nat → Outcome Nat
  | _, _, 0 => .running
  | isPrime, i, n + 1 =>
    let root := Nat.sqrt i
    let isPrime := trial i root isPrime 3 root
    if isPrime then .finished i else search isPrime (i + 2) n

def tooLarge : String := "Next Prime is Greater than max Int value"

def getNextPrimeI (input : Nat) : Outcome (Except String Nat) :=
  if input ≤ 2 then .finished (.ok 2)
  else if input ≤ 3 then .finished (.ok 3)
  else if input ≤ 5 then .finished (.ok 5)
  else if input ≤ 7 then .finished (.ok 7)
  else
    let input := if input = input / 2 * 2 then input + 1 else input
    (search false input input).map fun i => if 2 ^ 31 - 1 < i then .error tooLarge else .ok i

/-! ### What is found -/

structure Next (n p : Nat) : Prop where
  prime : p.Prime
  from_ : n ≤ p
  least : ∀ q : Nat, q.Prime → n ≤ q → p ≤ q

theorem exists_next (n : Nat) : ∃ p, Next n p ∧ p ≤ 2 * n + 2 := by
  have some_prime : ∃ p : Nat, n ≤ p ∧ p.Prime := Nat.exists_infinite_primes n
  refine ⟨Nat.find some_prime, ⟨(Nat.find_spec some_prime).2, (Nat.find_spec some_prime).1, ?_⟩, ?_⟩
  · exact fun q prime after => Nat.find_min' some_prime ⟨after, prime⟩
  · obtain ⟨q, prime, after, before⟩ := Nat.exists_prime_lt_and_le_two_mul (n + 1) (Nat.succ_ne_zero n)
    exact Nat.le_trans (Nat.find_min' some_prime ⟨by omega, prime⟩) (by omega)

theorem divides_iff (i j : Nat) : i = i / j * j ↔ j ∣ i :=
  ⟨fun same => ⟨i / j, same.trans (Nat.mul_comm _ _)⟩, fun divides => (Nat.div_mul_cancel divides).symm⟩

theorem trial_eq (i root : Nat) {isPrime : Bool} {j n : Nat} (turns : root < j + n) :
    trial i root isPrime j n = true ↔ (∀ d, j ≤ d → d ≤ root → ¬ d ∣ i) ∧ (j ≤ root ∨ isPrime = true) := by
  induction n generalizing isPrime j with
  | zero =>
    have past : root < j := turns
    refine ⟨fun same => ⟨fun d low high => absurd high (by omega), .inr same⟩, fun both => ?_⟩
    exact both.2.resolve_left (by omega)
  | succ n ih =>
    rw [trial]
    split
    · rename_i past
      refine ⟨fun same => ⟨fun d low high => absurd high (by omega), .inr same⟩, fun both => ?_⟩
      exact both.2.resolve_left (by omega)
    · rename_i inside
      split
      · rename_i divides
        refine iff_of_false Bool.false_ne_true fun both => ?_
        exact both.1 j (Nat.le_refl j) (by omega) ((divides_iff i j).mp divides)
      · rename_i undivided
        have none_here : ¬ j ∣ i := fun divides => undivided ((divides_iff i j).mpr divides)
        rw [ih (by omega)]
        constructor
        · rintro ⟨none, -⟩
          refine ⟨fun d low high => ?_, .inl (by omega)⟩
          rcases Nat.eq_or_lt_of_le low with rfl | later
          · exact none_here
          · exact none d later high
        · rintro ⟨none, -⟩
          refine ⟨fun d low high => none d (by omega) high, ?_⟩
          by_cases last : j = root
          · exact .inr (if_pos last)
          · exact .inl (by omega)

theorem trial_prime {i : Nat} (odd : i % 2 = 1) (large : 9 ≤ i) :
    trial i (Nat.sqrt i) false 3 (Nat.sqrt i) = true ↔ i.Prime := by
  have three : 3 ≤ Nat.sqrt i := Nat.le_sqrt.mpr large
  rw [trial_eq i _ (by omega), Nat.prime_def_le_sqrt]
  constructor
  · rintro ⟨none, -⟩
    refine ⟨by omega, fun d low high divides => ?_⟩
    rcases Nat.eq_or_lt_of_le low with rfl | three
    · omega
    · exact none d three high divides
  · rintro ⟨-, none⟩
    exact ⟨fun d low high => none d (by omega) high, .inl three⟩

theorem search_next {i p n : Nat} (odd : i % 2 = 1) (large : 9 ≤ i) (next : Next i p) (turns : p < i + 2 * n) :
    search false i n = .finished p := by
  induction n generalizing i with
  | zero => exact absurd next.from_ (by omega)
  | succ n ih =>
    rw [search]
    by_cases prime : i.Prime
    · rw [if_pos ((trial_prime odd large).mpr prime)]
      exact congrArg Outcome.finished (Nat.le_antisymm (next.least i prime (Nat.le_refl i)) next.from_).symm
    · have failed : trial i (Nat.sqrt i) false 3 (Nat.sqrt i) = false :=
        Bool.eq_false_iff.mpr fun found => prime ((trial_prime odd large).mp found)
      rw [failed, if_neg Bool.false_ne_true]
      -- Neither `i` nor the even number after it is the prime.
      have here : p ≠ i := fun same => prime (same ▸ next.prime)
      have even : p ≠ i + 1 := by
        rintro rfl
        have two := next.prime.eq_one_or_self_of_dvd 2 (by omega)
        omega
      have from_ := next.from_
      refine ih (by omega) (by omega) ⟨next.prime, by omega, fun q prime after => ?_⟩ (by omega)
      exact next.least q prime (by omega)

/-- The least prime from the argument on is returned, if it is an `int`. -/
theorem getNextPrimeI_next {input p : Nat} (next : Next input p) :
    getNextPrimeI input = .finished (if 2 ^ 31 - 1 < p then .error tooLarge else .ok p) := by
  have small : ∀ q : Nat, q.Prime → q < 8 → input ≤ q → (∀ r : Nat, r.Prime → r < q → r < input) →
      (Outcome.finished (.ok q) : Outcome (Except String Nat)) = .finished (if 2 ^ 31 - 1 < p then .error tooLarge else .ok p) := by
    intro q prime few after before
    have same : p = q := by
      refine Nat.le_antisymm (next.least q prime after) (Nat.le_of_not_lt fun less => ?_)
      have from_ := next.from_
      exact absurd (before p next.prime less) (by omega)
    rw [same, if_neg (by omega)]
  have none_four : ¬ Nat.Prime 4 := by decide
  have none_six : ¬ Nat.Prime 6 := by decide
  unfold getNextPrimeI
  by_cases two : input ≤ 2
  · rw [if_pos two]
    exact small 2 Nat.prime_two (by decide) two fun r prime less => absurd prime.two_le (by omega)
  rw [if_neg two]
  by_cases three : input ≤ 3
  · rw [if_pos three]
    exact small 3 Nat.prime_three (by decide) three fun r _ less => by omega
  rw [if_neg three]
  by_cases five : input ≤ 5
  · rw [if_pos five]
    refine small 5 Nat.prime_five (by decide) five fun r prime less => ?_
    have four : r ≠ 4 := fun same => none_four (same ▸ prime)
    omega
  rw [if_neg five]
  by_cases seven : input ≤ 7
  · rw [if_pos seven]
    refine small 7 Nat.prime_seven (by decide) seven fun r prime less => ?_
    have six : r ≠ 6 := fun same => none_six (same ▸ prime)
    omega
  rw [if_neg seven]
  dsimp only
  obtain ⟨q, near, bound⟩ := exists_next input
  have close : p ≤ 2 * input + 2 := Nat.le_trans (next.least q near.prime near.from_) bound
  by_cases even : input = input / 2 * 2
  · rw [if_pos even]
    have other : p ≠ input := by
      rintro rfl
      have two := next.prime.eq_one_or_self_of_dvd 2 ⟨p / 2, by omega⟩
      omega
    have from_ := next.from_
    have found : search false (input + 1) (input + 1) = .finished p :=
      search_next (by omega) (by omega)
        ⟨next.prime, by omega, fun q prime after => next.least q prime (by omega)⟩ (by omega)
    rw [found]
    rfl
  · rw [if_neg even]
    have eight : input ≠ 8 := by omega
    rw [search_next (by omega) (by omega) next (by omega)]
    rfl

end EncryptedDedup.SDFS.NextPrime
