import Mathlib.Data.List.Induction

/-!
# Patches of partial functions

A patch gives a partial function new values at the points it covers.
-/

namespace EncryptedDedup

variable {α β γ : Type} (covers : γ → α → Bool) (value : γ → α → β)

def patch (f : α → Option β) (p : γ) : α → Option β := fun x => if covers p x then some (value p x) else f x

/-- The value of the latest patch that covers a point; where there is none, of `f`. -/
def latest (f : α → Option β) (ps : List γ) (x : α) : Option β :=
  match ps.reverse.find? fun p => covers p x with
  | some p => some (value p x)
  | none => f x

theorem foldl_patch (ps : List γ) (f : α → Option β) : ps.foldl (patch covers value) f = latest covers value f ps := by
  funext x
  induction ps using List.reverseRecOn with
  | nil => rfl
  | append_singleton ps p ih =>
    rw [List.foldl_append, List.foldl_cons, List.foldl_nil, patch, latest, List.reverse_append,
      List.reverse_singleton, List.singleton_append, List.find?_cons]
    cases covers p x with
    | true => rfl
    | false => exact ih

variable {covers value}

/-- Where all the patches that cover a point agree, their order is of no account. -/
theorem latest_of_agree {ps : List γ} {f : α → Option β} {x : α} {p : γ} (member : p ∈ ps) (covered : covers p x = true)
    (agree : ∀ q ∈ ps, covers q x = true → value q x = value p x) : latest covers value f ps x = some (value p x) := by
  rw [latest]
  cases found : ps.reverse.find? fun q => covers q x with
  | none => exact absurd covered (List.find?_eq_none.mp found p (List.mem_reverse.mpr member))
  | some q =>
    have there := List.mem_reverse.mp (List.mem_of_find?_eq_some found)
    exact congrArg some (agree q there (@List.find?_some _ (fun q => covers q x) _ _ found))

theorem latest_of_outside {ps : List γ} {f : α → Option β} {x : α} (outside : ∀ p ∈ ps, covers p x = false) :
    latest covers value f ps x = f x := by
  have nowhere : (ps.reverse.find? fun p => covers p x) = none := by
    rw [List.find?_eq_none]
    intro p member covered
    rw [outside p (List.mem_reverse.mp member)] at covered
    cases covered
  rw [latest, nowhere]

theorem patch_comm {f : α → Option β} {p q : γ} (apart : ∀ x, ¬ (covers p x = true ∧ covers q x = true)) :
    patch covers value (patch covers value f p) q = patch covers value (patch covers value f q) p := by
  funext x
  simp only [patch]
  cases first : covers p x with
  | false => rfl
  | true =>
    cases second : covers q x with
    | false => rfl
    | true => exact absurd ⟨first, second⟩ (apart x)

end EncryptedDedup
