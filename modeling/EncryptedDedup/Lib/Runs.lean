/-!
# Runs of a machine

A machine answers one event after another. What each of its answers needs, and what is right about it, can depend on
the state before the event.
-/

namespace EncryptedDedup

variable {σ ε : Type} (step : σ → ε → σ)

/-- `P` holds of every event of the run, and the state before it. -/
def Throughout (P : σ → ε → Prop) : σ → List ε → Prop
  | _, [] => True
  | s, e :: events => P s e ∧ Throughout P (step s e) events

variable {step} {M P : σ → ε → Prop} {s : σ} {events : List ε}

/-- What an invariant gives for one event holds throughout a run whose events all meet `M`. -/
theorem Throughout.of_invariant {I : σ → Prop} (next : ∀ s e, I s → M s e → P s e ∧ I (step s e)) (start : I s)
    (meets : Throughout step M s events) : Throughout step P s events := by
  induction events generalizing s with
  | nil => trivial
  | cons e events ih =>
    obtain ⟨now, later⟩ := meets
    obtain ⟨right, kept⟩ := next s e start now
    exact ⟨right, ih kept later⟩

end EncryptedDedup
