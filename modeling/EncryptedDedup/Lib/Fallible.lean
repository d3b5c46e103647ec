import Mathlib.Data.Option.Basic
import Mathlib.Data.List.Basic

/-!
# Loops that may fail

Folds and maps in `Option`.
-/

namespace EncryptedDedup

/-! ### Maps -/

theorem length_mapM {α β : Type} {f : α → Option β} {xs : List α} {ys : List β} (run : xs.mapM f = some ys) :
    ys.length = xs.length := by
  induction xs generalizing ys with
  | nil =>
    cases Option.some.inj run
    rfl
  | cons x xs ih =>
    rw [List.mapM_cons] at run
    obtain ⟨y, -, rest⟩ := Option.bind_eq_some_iff.mp run
    obtain ⟨zs, later, same⟩ := Option.bind_eq_some_iff.mp rest
    cases Option.some.inj same
    rw [List.length_cons, List.length_cons, ih later]

theorem mem_of_mapM {α β : Type} {f : α → Option β} {xs : List α} {ys : List β} (run : xs.mapM f = some ys) {y : β}
    (member : y ∈ ys) : ∃ x ∈ xs, f x = some y := by
  induction xs generalizing ys with
  | nil =>
    cases Option.some.inj run
    cases member
  | cons x xs ih =>
    rw [List.mapM_cons] at run
    obtain ⟨z, here, rest⟩ := Option.bind_eq_some_iff.mp run
    obtain ⟨zs, later, same⟩ := Option.bind_eq_some_iff.mp rest
    cases Option.some.inj same
    rcases List.mem_cons.mp member with rfl | other
    · exact ⟨x, List.mem_cons_self, here⟩
    · obtain ⟨w, known, made⟩ := ih later other
      exact ⟨w, List.mem_cons_of_mem x known, made⟩

/-! ### Folds -/

section
variable {σ α : Type} {f : σ → α → Option σ}

theorem foldlM_keep {R : σ → Prop} (step : ∀ s s' x, f s x = some s' → R s → R s') {s s' : σ}
    {xs : List α} (ran : xs.foldlM f s = some s') (start : R s) : R s' := by
  induction xs generalizing s with
  | nil => exact Option.some.inj ran ▸ start
  | cons x xs ih =>
    rw [List.foldlM_cons] at ran
    obtain ⟨s₁, here, rest⟩ := Option.bind_eq_some_iff.mp ran
    exact ih rest (step s s₁ x here start)

theorem foldlM_isSome {xs : List α} (total : ∀ x ∈ xs, ∀ s, (f s x).isSome) (s : σ) : (xs.foldlM f s).isSome := by
  induction xs generalizing s with
  | nil => rfl
  | cons x xs ih =>
    obtain ⟨t, here⟩ := Option.isSome_iff_exists.mp (total x List.mem_cons_self s)
    rw [List.foldlM_cons, here]
    exact ih (fun y member => total y (List.mem_cons_of_mem _ member)) t

theorem foldlM_turn {s s' : σ} {xs : List α} (ran : xs.foldlM f s = some s') {x : α} (member : x ∈ xs) :
    ∃ t t', f t x = some t' := by
  induction xs generalizing s with
  | nil => cases member
  | cons y xs ih =>
    rw [List.foldlM_cons] at ran
    obtain ⟨s₁, here, rest⟩ := Option.bind_eq_some_iff.mp ran
    rcases List.mem_cons.mp member with rfl | later
    · exact ⟨s, s₁, here⟩
    · exact ih rest later

theorem foldlM_related {R : σ → σ → Prop} (step : ∀ s t s' x, R t s → f s x = some s' → ∃ t', f t x = some t' ∧ R t' s')
    {s s' t : σ} {xs : List α} (ran : xs.foldlM f s = some s') (related : R t s) :
    ∃ t', xs.foldlM f t = some t' ∧ R t' s' := by
  induction xs generalizing s t with
  | nil =>
    obtain rfl := Option.some.inj ran
    exact ⟨t, rfl, related⟩
  | cons x xs ih =>
    rw [List.foldlM_cons] at ran
    obtain ⟨s₁, here, rest⟩ := Option.bind_eq_some_iff.mp ran
    obtain ⟨t₁, there, related₁⟩ := step s t s₁ x related here
    obtain ⟨t', ran', related'⟩ := ih rest related₁
    exact ⟨t', by rw [List.foldlM_cons, there]; exact ran', related'⟩

/-- A loop follows another one until a turn of its own fails, for a reason that does not go away. -/
theorem foldlM_follows {τ β : Type} {g : τ → β → Option τ} {i : α → β} {R : σ → τ → Prop} {B : τ → Prop}
    (step : ∀ s t t' x, R s t → g t (i x) = some t' → (∃ s', f s x = some s' ∧ R s' t') ∨ (f s x = none ∧ B t'))
    (stays : ∀ t t' y, B t → g t y = some t' → B t') {s : σ} {t t' : τ} {xs : List α}
    (ran : (xs.map i).foldlM g t = some t') (related : R s t) :
    (∃ s', xs.foldlM f s = some s' ∧ R s' t') ∨ (xs.foldlM f s = none ∧ B t') := by
  induction xs generalizing s t with
  | nil =>
    obtain rfl := Option.some.inj ran
    exact .inl ⟨s, rfl, related⟩
  | cons x xs ih =>
    rw [List.map_cons, List.foldlM_cons] at ran
    obtain ⟨t₁, here, rest⟩ := Option.bind_eq_some_iff.mp ran
    rw [List.foldlM_cons]
    rcases step s t t₁ x related here with ⟨s₁, there, related₁⟩ | ⟨fails, bad⟩
    · rw [there]
      exact ih rest related₁
    · rw [fails]
      exact .inr ⟨rfl, foldlM_keep (fun t t' y moved bad => stays t t' y bad moved) rest bad⟩

end

end EncryptedDedup
