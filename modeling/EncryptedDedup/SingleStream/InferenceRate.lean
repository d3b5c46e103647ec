import EncryptedDedup.SingleStream.LocalityRun
import EncryptedDedup.SingleStream.EntropyRun

/-!
# The reported inference rate

Both attacks print `correct + common - leak` against `total`.
-/

namespace EncryptedDedup
open Attack

variable {D : Type} [LinearOrder D] {P : PriorityQueue Node cmp} {A : EntropyAttack.Arith D}
  {T : EntropyAttack.Tuning D} {d : Databases} {args : Args}

theorem LocalityAttack.head_honest (closed : d.Closed) {s₀ s : State} {n : Nat}
    (started : start P d args = some s₀) (tested : (mainLoop P d args).Tests s₀ n s) : Honest d s := by
  obtain ⟨sound, -, counted⟩ := start_sound started
  have both := Loop.invariant _ (I := fun s => Sound s ∧ Counted d 0 s) ⟨sound, counted⟩
    (fun t u ⟨sound, counted⟩ _ moved => ⟨sound.iteration (iterate_iteration moved),
      counted.iteration closed.neighbours sound (iterate_iteration moved)⟩) tested
  exact both.2.honest both.1

theorem EntropyAttack.head_honest (closed : d.Closed) {s₀ s : EntropyState} {n : Nat}
    (started : start P A T d args = some s₀) (tested : (mainLoop P A T d args).Tests s₀ n s) :
    Honest d s.toState := by
  obtain ⟨sound, -, counted⟩ := start_sound started
  have both := Loop.invariant _ (I := fun s => Sound s.toState ∧ Counted d 0 s.toState) ⟨sound, counted⟩
    (fun t u ⟨sound, counted⟩ _ moved => ⟨sound.iteration (iterate_iteration moved),
      counted.iteration closed.neighbours sound (iterate_iteration moved)⟩) tested
  exact both.2.honest both.1

/-- At every test of their loop conditions, and so at the end, both attacks have counted each
ciphertext chunk at most once. -/
theorem inferredChunks_honest (closed : d.Closed) :
    (∀ s₀ n s, LocalityAttack.start P d args = some s₀ →
      (LocalityAttack.mainLoop P d args).Tests s₀ n s → Honest d s) ∧
    (∀ s₀ n s, EntropyAttack.start P A T d args = some s₀ →
      (EntropyAttack.mainLoop P A T d args).Tests s₀ n s → Honest d s.toState) :=
  ⟨fun _ _ _ started tested => LocalityAttack.head_honest closed started tested,
    fun _ _ _ started tested => EntropyAttack.head_honest closed started tested⟩

/-- Every second ciphertext chunk is leaked, one of them unknown to the plaintext side. -/
def leakyDatabases : Databases := .ofTraces "12131412" "2151315152"

def leakyArgs : Args := ⟨3, 2, 10, 1 / 2, 5000, fun n => n % 2 * 6000⟩

theorem inferredChunks_honest_leaky :
    (∀ s₀ n s, LocalityAttack.start listHeap leakyDatabases leakyArgs = some s₀ →
      (LocalityAttack.mainLoop listHeap leakyDatabases leakyArgs).Tests s₀ n s → Honest leakyDatabases s) ∧
    (∀ s₀ n s, EntropyAttack.start listHeap EntropyAttack.rationals (EntropyAttack.tuning EntropyAttack.rationals)
        leakyDatabases leakyArgs = some s₀ →
      (EntropyAttack.mainLoop listHeap EntropyAttack.rationals (EntropyAttack.tuning EntropyAttack.rationals)
        leakyDatabases leakyArgs).Tests s₀ n s → Honest leakyDatabases s.toState) :=
  inferredChunks_honest ⟨by decide +kernel, by decide +kernel⟩

end EncryptedDedup
