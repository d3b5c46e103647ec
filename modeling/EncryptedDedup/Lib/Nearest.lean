import Mathlib.Data.List.Induction
import Mathlib.Order.Lattice

/-!
# The nearest candidate

One pass over candidates that keeps the first admissible one that is nearer than all before.
-/

namespace EncryptedDedup

variable {ι D : Type} [LinearOrder D] (admissible : ι → Bool) (distance : ι → D)

def nearer (best : D × Option ι) (q : ι) : D × Option ι :=
  if admissible q && distance q < best.1 then (distance q, some q) else best

/-- The pass, whose first best distance is `top`. -/
def nearest (top : D) (qs : List ι) : D × Option ι := qs.foldl (nearer admissible distance) (top, none)

def IsNearest (top : D) (qs : List ι) (q : ι) : Prop :=
  q ∈ qs ∧ admissible q = true ∧ distance q < top ∧ ∀ q' ∈ qs, admissible q' = true → distance q ≤ distance q'

variable {admissible distance}

theorem nearest_spec (top : D) (qs : List ι) :
    (∃ q, nearest admissible distance top qs = (distance q, some q) ∧ IsNearest admissible distance top qs q) ∨
      (nearest admissible distance top qs = (top, none) ∧ ∀ q ∈ qs, admissible q = true → top ≤ distance q) := by
  induction qs using List.reverseRecOn with
  | nil => exact .inr ⟨rfl, fun _ member => absurd member List.not_mem_nil⟩
  | append_singleton qs x ih =>
    have step : nearest admissible distance top (qs ++ [x]) =
        nearer admissible distance (nearest admissible distance top qs) x := by
      unfold nearest
      rw [List.foldl_append, List.foldl_cons, List.foldl_nil]
    have among : ∀ q', q' ∈ qs ++ [x] → q' ∈ qs ∨ q' = x := fun q' member =>
      (List.mem_append.mp member).imp_right List.mem_singleton.mp
    rw [step]
    unfold nearer
    rcases ih with ⟨q, best, known, fits, below, least⟩ | ⟨best, least⟩
    · rw [best]
      dsimp only
      split
      · rename_i closer
        rw [Bool.and_eq_true, decide_eq_true_iff] at closer
        refine .inl ⟨x, rfl, List.mem_append_right _ List.mem_cons_self, closer.1, closer.2.trans below, ?_⟩
        intro q' member admitted
        rcases among q' member with before | rfl
        · exact closer.2.le.trans (least q' before admitted)
        · exact le_refl _
      · rename_i further
        refine .inl ⟨q, rfl, List.mem_append_left _ known, fits, below, fun q' member admitted => ?_⟩
        rcases among q' member with before | rfl
        · exact least q' before admitted
        · rw [admitted, Bool.true_and, decide_eq_true_iff, not_lt] at further
          exact further
    · rw [best]
      dsimp only
      split
      · rename_i closer
        rw [Bool.and_eq_true, decide_eq_true_iff] at closer
        refine .inl ⟨x, rfl, List.mem_append_right _ List.mem_cons_self, closer.1, closer.2, ?_⟩
        intro q' member admitted
        rcases among q' member with before | rfl
        · exact closer.2.le.trans (least q' before admitted)
        · exact le_refl _
      · rename_i further
        refine .inr ⟨rfl, fun q' member admitted => ?_⟩
        rcases among q' member with before | rfl
        · exact least q' before admitted
        · rw [admitted, Bool.true_and, decide_eq_true_iff, not_lt] at further
          exact further

end EncryptedDedup
