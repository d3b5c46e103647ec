import EncryptedDedup.Bucket.ReadTypesRun
import Mathlib.Algebra.Order.BigOperators.Group.List

/-!
# Counters that go through an `int`

When sums of such counters are right: of the counts of a chunk, and of the numbers of a type.
-/

namespace EncryptedDedup.ReadTypes

/-! ### Counts of a chunk -/

/-- Counts whose counters add up to the counter of their sum. -/
def CountsFit (cs : List Nat) : Prop :=
  (cs.map (· % wrap)).sum ≤ 2 ^ 31 ∨ (cs.filter fun c => c % wrap ≠ 0).length ≤ 1

instance instDecidableCountsFit (cs : List Nat) : Decidable (CountsFit cs) := inferInstanceAs (Decidable (_ ∨ _))

theorem counter_congr {m n : Nat} (same : m % wrap = n % wrap) : counter m = counter n := by
  unfold counter
  rw [same]

theorem mod_le_counter (n : Nat) : n % wrap ≤ counter n := by
  have below := mod_wrap_le n
  unfold counter
  split <;> omega

theorem counter_small {n : Nat} (small : n % wrap ≤ 2 ^ 31) : counter n = n % wrap := if_pos small

theorem counter_large {n : Nat} (large : ¬ n % wrap ≤ 2 ^ 31) : counter n = 2 ^ 64 - 2 ^ 31 + 1 := if_neg large

theorem counter_le (n : Nat) : counter n ≤ 2 ^ 64 - 2 ^ 31 + 1 := by
  unfold counter
  split <;> omega

theorem sum_mod_wrap (cs : List Nat) : (cs.map (· % wrap)).sum % wrap = cs.sum % wrap := by
  induction cs with
  | nil => rfl
  | cons c cs ih => rw [List.map_cons, List.sum_cons, List.sum_cons, Nat.add_mod, ih, Nat.mod_mod, ← Nat.add_mod]

theorem sum_mod_le (cs : List Nat) : (cs.map (· % wrap)).sum ≤ cs.sum := by
  have each : (cs.map (· % wrap)).sum ≤ (cs.map id).sum := List.sum_le_sum fun c _ => Nat.mod_le c wrap
  rwa [List.map_id] at each

theorem sum_filter_of_zero {α : Type} {p : α → Prop} [DecidablePred p] {f : α → Nat} (vanishes : ∀ a, ¬ p a → f a = 0)
    (l : List α) : ((l.filter p).map f).sum = (l.map f).sum := by
  induction l with
  | nil => rfl
  | cons a l ih =>
    by_cases kept : p a
    · rw [List.filter_cons_of_pos (by simpa using kept), List.map_cons, List.map_cons, List.sum_cons, List.sum_cons, ih]
    · rw [List.filter_cons_of_neg (by simpa using kept), ih, List.map_cons, List.sum_cons, vanishes a kept, Nat.zero_add]

theorem sum_filter_nonzero {f : Nat → Nat} (vanishes : ∀ c, c % wrap = 0 → f c = 0) (cs : List Nat) :
    ((cs.filter fun c => c % wrap ≠ 0).map f).sum = (cs.map f).sum :=
  sum_filter_of_zero (fun c zero => vanishes c (not_not.mp zero)) cs

theorem counter_of_mod_zero {c : Nat} (zero : c % wrap = 0) : counter c = 0 := by
  rw [counter_small (by rw [zero]; exact Nat.zero_le _), zero]

theorem sum_counter_small {cs : List Nat} (small : ∀ c ∈ cs, c % wrap ≤ 2 ^ 31) :
    (cs.map counter).sum = (cs.map (· % wrap)).sum := by
  rw [List.map_congr_left fun c member => counter_small (small c member)]

theorem sum_counter_large {cs : List Nat} (nonzero : ∀ c ∈ cs, c % wrap ≠ 0) (several : 2 ≤ cs.length)
    {c : Nat} (member : c ∈ cs) (large : ¬ c % wrap ≤ 2 ^ 31) : 2 ^ 64 - 2 ^ 31 + 1 < (cs.map counter).sum := by
  obtain ⟨front, back, rfl⟩ := List.append_of_mem member
  rw [List.map_append, List.sum_append, List.map_cons, List.sum_cons, counter_large large]
  have positive : ∀ c' ∈ front ++ back, 1 ≤ counter c' := by
    intro c' inside
    have listed : c' ∈ front ++ c :: back := by
      rcases List.mem_append.mp inside with left | right
      · exact List.mem_append_left _ left
      · exact List.mem_append_right _ (List.mem_cons_of_mem _ right)
    have least := nonzero c' listed
    have bound := mod_le_counter c'
    omega
  have others : 1 ≤ ((front ++ back).map counter).sum := by
    rw [List.length_append, List.length_cons] at several
    obtain ⟨c', rest, whole⟩ := List.exists_cons_of_length_pos (l := front ++ back) (by rw [List.length_append]; omega)
    have one := positive c' (whole ▸ List.mem_cons_self)
    rw [whole, List.map_cons, List.sum_cons]
    omega
  rw [List.map_append, List.sum_append] at others
  omega

theorem sum_counter_iff {cs : List Nat} (few : cs.sum < 2 ^ 63) :
    (cs.map counter).sum = counter cs.sum ↔ CountsFit cs := by
  have residues := sum_filter_nonzero (f := (· % wrap)) (fun _ zero => zero) cs
  have total := sum_mod_wrap cs
  have below := sum_mod_le cs
  rw [← sum_filter_nonzero (fun _ => counter_of_mod_zero) cs]
  unfold CountsFit
  rw [← residues] at total below ⊢
  have nonzero : ∀ c ∈ cs.filter (fun c => c % wrap ≠ 0), c % wrap ≠ 0 := fun c member => by
    simpa using (List.mem_filter.mp member).2
  generalize cs.filter (fun c => c % wrap ≠ 0) = ds at total below nonzero ⊢
  rw [counter_congr total.symm]
  by_cases alone : ds.length ≤ 1
  · refine iff_of_true ?_ (.inr alone)
    rcases ds with _ | ⟨d, _ | ⟨d', ds⟩⟩
    · rfl
    · rw [List.map_singleton, List.map_singleton, List.sum_singleton, List.sum_singleton]
      exact counter_congr (Nat.mod_mod d wrap).symm
    · rw [List.length_cons, List.length_cons] at alone
      omega
  · rw [or_iff_left alone]
    by_cases within : ∀ d ∈ ds, d % wrap ≤ 2 ^ 31
    · rw [sum_counter_small within]
      generalize (ds.map (· % wrap)).sum = r at below
      constructor
      · intro same
        by_contra more
        unfold counter wrap at same
        split at same <;> omega
      · intro small
        have mod : r % wrap = r := Nat.mod_eq_of_lt (by unfold wrap; omega)
        rw [counter_small (by rw [mod]; exact small), mod]
    · obtain ⟨d, further⟩ := not_forall.mp within
      obtain ⟨member, large⟩ := Classical.not_imp.mp further
      have past := sum_counter_large nonzero (by omega) member large
      have most := counter_le (ds.map (· % wrap)).sum
      refine iff_of_false (by omega) ?_
      have part : d % wrap ≤ (ds.map (· % wrap)).sum := List.le_sum_of_mem (List.mem_map_of_mem member)
      omega

/-! ### Numbers of a type -/

/-- The total in the database after the numbers of a type were added one after another. -/
def typeTotal (ns : List Nat) : Nat := ns.foldl (fun t n => (readAsInt t + n) % 2 ^ 64) 0

theorem readAsInt_le_or (n : Nat) : readAsInt n ≤ n ∨ 2 ^ 63 ≤ readAsInt n := by
  unfold readAsInt toU64
  rw [Int.bmod_def]
  split <;> omega

theorem typeTotal_concat (ns : List Nat) (n : Nat) :
    typeTotal (ns ++ [n]) = (readAsInt (typeTotal ns) + n) % 2 ^ 64 := by
  unfold typeTotal
  rw [List.foldl_append]
  rfl

/-- The total is right as long as no total that was read back is past an `int`; after that it is too small or huge. -/
theorem typeTotal_cases (ns : List Nat) (few : ns.sum < 2 ^ 63) :
    (ns.dropLast.sum < 2 ^ 31 ∧ typeTotal ns = ns.sum) ∨
    (2 ^ 31 ≤ ns.dropLast.sum ∧ (typeTotal ns < ns.sum ∨ 2 ^ 63 ≤ typeTotal ns)) := by
  induction ns using List.reverseRecOn with
  | nil => exact .inl ⟨by decide, rfl⟩
  | append_singleton ns n ih =>
    rw [List.dropLast_concat, typeTotal_concat, List.sum_append, List.sum_singleton] at *
    have word := readAsInt_lt (typeTotal ns)
    have prefix_ : ns.dropLast.sum ≤ ns.sum := by
      rcases List.eq_nil_or_concat ns with rfl | ⟨front, last, rfl⟩
      · exact Nat.le_refl _
      · rw [List.concat_eq_append, List.dropLast_concat, List.sum_append]
        exact Nat.le_add_right _ _
    rcases ih (by omega) with ⟨-, exact_⟩ | ⟨past, wrong⟩
    · rw [exact_] at word ⊢
      by_cases small : ns.sum < 2 ^ 31
      · have same := (readAsInt_eq_iff (by omega)).mpr small
        rw [same]
        exact .inl ⟨small, by omega⟩
      · have other : readAsInt ns.sum ≠ ns.sum := mt (readAsInt_eq_iff (by omega)).mp small
        rcases readAsInt_le_or ns.sum with low | huge <;> exact .inr ⟨by omega, by omega⟩
    · rcases readAsInt_le_or (typeTotal ns) with low | huge
      · rcases wrong with less | more
        · exact .inr ⟨by omega, by omega⟩
        · have clamped : readAsInt (typeTotal ns) = 2 ^ 64 - 1 := by
            unfold readAsInt toU64
            rw [Int.bmod_def]
            split <;> omega
          rw [clamped]
          exact .inr ⟨by omega, by omega⟩
      · exact .inr ⟨by omega, by omega⟩

end EncryptedDedup.ReadTypes
