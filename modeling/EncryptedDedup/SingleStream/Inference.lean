import EncryptedDedup.SingleStream.Attack
import Mathlib.Logic.Relation

/-!
# Inference as a process

An attack leaks chunks, then takes one pair after another and enqueues new ones. What both attacks
guarantee is stated here, for any rule by which a pair is chosen and marked.
-/

namespace EncryptedDedup.Attack

/-! ### What a log says -/

def Event.plains : Event → List Node
  | .leaked p _ => [p]
  | .missed _ => []
  | .ranked o _ => o
  | .paired p _ _ => [p]
  | .skipped _ _ => []

def Event.ciphers : Event → List Node
  | .leaked _ c => [c]
  | .missed _ => []
  | .ranked _ t => t
  | .paired _ c _ => [c]
  | .skipped _ _ => []

def Event.pairs : Event → List (Node × Node)
  | .leaked p c => [(p, c)]
  | .missed _ => []
  | .ranked o t => o.zip t
  | .paired p c _ => [(p, c)]
  | .skipped _ _ => []

def Event.unknown : Event → List Fp
  | .missed k => [k]
  | _ => []

def pushedO (log : List Event) : List Node := log.flatMap Event.plains

def pushedT (log : List Event) : List Node := log.flatMap Event.ciphers

def inferred (log : List Event) : List (Node × Node) := log.flatMap Event.pairs

def unknown (log : List Event) : List Fp := log.flatMap Event.unknown

@[simp] theorem pushedO_concat (log : List Event) (e : Event) :
    pushedO (log ++ [e]) = pushedO log ++ e.plains := by simp [pushedO]

@[simp] theorem pushedT_concat (log : List Event) (e : Event) :
    pushedT (log ++ [e]) = pushedT log ++ e.ciphers := by simp [pushedT]

@[simp] theorem inferred_concat (log : List Event) (e : Event) :
    inferred (log ++ [e]) = inferred log ++ e.pairs := by simp [inferred]

@[simp] theorem unknown_concat (log : List Event) (e : Event) :
    unknown (log ++ [e]) = unknown log ++ e.unknown := by simp [unknown]

def Aligned (log : List Event) : Prop :=
  pushedO log = (inferred log).map Prod.fst ∧ pushedT log = (inferred log).map Prod.snd

theorem Aligned.concat {log : List Event} (aligned : Aligned log) {e : Event}
    (balanced : e.plains = e.pairs.map Prod.fst ∧ e.ciphers = e.pairs.map Prod.snd) :
    Aligned (log ++ [e]) := by
  constructor
  · rw [pushedO_concat, inferred_concat, List.map_append, aligned.1, balanced.1]
  · rw [pushedT_concat, inferred_concat, List.map_append, aligned.2, balanced.2]

/-- Equally long queues whose elements were enqueued together, in this order. -/
def Lockstep (s : State) : Prop :=
  s.qO.length = s.qT.length ∧ s.qO.zip s.qT = (inferred s.log).drop s.involve

/-! ### Rules and moves -/

/-- How an attack enqueues pairs: the limit on `q_o` and the keys that a pair puts into `uniq`. -/
structure Rules where
  limit : Nat
  marks : Node → Node → List Fp
  marks_cipher : ∀ p c, c.key ∈ marks p c

/-- One turn of a pairing loop that does something. -/
inductive Move (R : Rules) (candidate : Node → Node → Prop) : State → State → Prop where
  | push {s : State} {p c : Node} {uniq : OrderedMap Fp Bytes} (chosen : candidate p c)
      (fresh : c.key ∉ s.uniq.keys) (room : s.qO.length < R.limit)
      (marked : ∀ k, k ∈ uniq.keys ↔ k ∈ s.uniq.keys ∨ k ∈ R.marks p c) :
      Move R candidate s (s.push p c uniq)
  | skip {s : State} {c : Node} (seen : c.key ∈ s.uniq.keys) : Move R candidate s (s.skip c)

abbrev Moves (R : Rules) (candidate : Node → Node → Prop) : State → State → Prop :=
  Relation.ReflTransGen (Move R candidate)

theorem Moves.keep {R : Rules} {candidate : Node → Node → Prop} {I : State → Prop}
    (step : ∀ s t, I s → Move R candidate s t → I t) {s t : State} (moves : Moves R candidate s t)
    (start : I s) : I t := by
  induction moves with
  | refl => exact start
  | tail _ move ih => exact step _ _ ih move

structure SameCounts (s t : State) : Prop where
  total : t.total = s.total
  common : t.common = s.common
  correct : t.correct = s.correct
  involve : t.involve = s.involve
  leak : t.leak = s.leak
  ansq : t.ansq = s.ansq
  unknown : unknown t.log = unknown s.log

theorem Moves.sameCounts {R : Rules} {candidate : Node → Node → Prop} {s t : State}
    (moves : Moves R candidate s t) : SameCounts s t := by
  refine moves.keep (I := SameCounts s) (fun u v same move => ?_) ⟨rfl, rfl, rfl, rfl, rfl, rfl, rfl⟩
  cases move with
  | push =>
    refine ⟨same.total, same.common, same.correct, same.involve, same.leak, same.ansq, ?_⟩
    rw [← same.unknown]
    exact (unknown_concat _ _).trans (List.append_nil _)
  | skip =>
    refine ⟨same.total, same.common, same.correct, same.involve, same.leak, same.ansq, ?_⟩
    rw [← same.unknown]
    exact (unknown_concat _ _).trans (List.append_nil _)

/-! ### The worklist -/

/-- The queues are what was pushed and not yet taken, and no ciphertext chunk was pushed twice. -/
structure Sound (s : State) : Prop where
  queueO : s.qO = (pushedO s.log).drop s.involve
  queueT : s.qT = (pushedT s.log).drop s.involve
  takenO : s.involve ≤ (pushedO s.log).length
  takenT : s.involve ≤ (pushedT s.log).length
  distinct : ((pushedT s.log).map Node.key).Nodup
  marked : ∀ c ∈ pushedT s.log, c.key ∈ s.uniq.keys

theorem Sound.move {R : Rules} {candidate : Node → Node → Prop} {s t : State} (sound : Sound s)
    (move : Move R candidate s t) : Sound t := by
  cases move with
  | @push p c uniq chosen fresh room marked =>
    have logO : pushedO (s.push p c uniq).log = pushedO s.log ++ [p] := pushedO_concat _ _
    have logT : pushedT (s.push p c uniq).log = pushedT s.log ++ [c] := pushedT_concat _ _
    refine ⟨?_, ?_, ?_, ?_, ?_, ?_⟩
    · rw [logO, State.push, sound.queueO, List.drop_append_of_le_length sound.takenO]
    · rw [logT, State.push, sound.queueT, List.drop_append_of_le_length sound.takenT]
    · rw [logO, List.length_append]
      exact Nat.le_add_right_of_le sound.takenO
    · rw [logT, List.length_append]
      exact Nat.le_add_right_of_le sound.takenT
    · rw [logT, List.map_append, List.map_singleton, ← List.concat_eq_append, List.nodup_concat]
      refine ⟨?_, sound.distinct⟩
      intro pushed
      obtain ⟨c', member, same⟩ := List.mem_map.mp pushed
      exact fresh (same ▸ sound.marked c' member)
    · intro c' member
      rw [logT] at member
      refine (marked c'.key).mpr ?_
      rcases List.mem_append.mp member with old | new
      · exact Or.inl (sound.marked c' old)
      · rw [List.mem_singleton.mp new]
        exact Or.inr (R.marks_cipher p c)
  | @skip c seen =>
    have logO : pushedO (s.skip c).log = pushedO s.log := (pushedO_concat _ _).trans (List.append_nil _)
    have logT : pushedT (s.skip c).log = pushedT s.log := (pushedT_concat _ _).trans (List.append_nil _)
    exact ⟨logO ▸ sound.queueO, logT ▸ sound.queueT, logO ▸ sound.takenO, logT ▸ sound.takenT,
      logT ▸ sound.distinct, logT ▸ sound.marked⟩

theorem Sound.moves {R : Rules} {candidate : Node → Node → Prop} {s t : State} (sound : Sound s)
    (moves : Moves R candidate s t) : Sound t := moves.keep (fun _ _ sound => sound.move) sound

theorem Sound.take {s : State} (sound : Sound s) (filledO : s.qO ≠ []) (filledT : s.qT ≠ []) :
    Sound s.take := by
  refine ⟨?_, ?_, ?_, ?_, sound.distinct, sound.marked⟩
  · show s.qO.tail = (pushedO s.log).drop (s.involve + 1)
    rw [sound.queueO, List.tail_drop]
  · show s.qT.tail = (pushedT s.log).drop (s.involve + 1)
    rw [sound.queueT, List.tail_drop]
  · show s.involve + 1 ≤ (pushedO s.log).length
    rw [sound.queueO, Ne, List.drop_eq_nil_iff] at filledO
    omega
  · show s.involve + 1 ≤ (pushedT s.log).length
    rw [sound.queueT, Ne, List.drop_eq_nil_iff] at filledT
    omega

theorem aligned_moves {R : Rules} {candidate : Node → Node → Prop} {s t : State}
    (moves : Moves R candidate s t) (aligned : Aligned s.log) : Aligned t.log := by
  refine moves.keep (I := fun s => Aligned s.log) (fun u v aligned move => ?_) aligned
  cases move with
  | push => exact aligned.concat ⟨rfl, rfl⟩
  | skip => exact aligned.concat ⟨rfl, rfl⟩

theorem Sound.lockstep {s : State} (sound : Sound s) (aligned : Aligned s.log) : Lockstep s := by
  have qO : s.qO = ((inferred s.log).drop s.involve).map Prod.fst := by
    rw [sound.queueO, aligned.1, List.map_drop]
  have qT : s.qT = ((inferred s.log).drop s.involve).map Prod.snd := by
    rw [sound.queueT, aligned.2, List.map_drop]
  constructor
  · rw [qO, qT, List.length_map, List.length_map]
  · rw [qO, qT, ← List.unzip_fst, ← List.unzip_snd, List.zip_unzip]

/-! ### Iterations -/

/-- One iteration of a main loop: the heads are examined, new pairs enqueued, the heads taken. -/
def Iteration (R : Rules) (candidate : Node → Node → Prop) (s t : State) : Prop :=
  ∃ p c mid, s.qO.head? = some p ∧ s.qT.head? = some c ∧ Moves R candidate (s.examine p c) mid ∧
    t = mid.take

theorem examine_log (s : State) (p c : Node) : (s.examine p c).log = s.log := by
  unfold State.examine
  split <;> rfl

theorem Sound.examine {s : State} (sound : Sound s) (p c : Node) : Sound (s.examine p c) := by
  unfold State.examine
  split
  · exact ⟨sound.queueO, sound.queueT, sound.takenO, sound.takenT, sound.distinct, sound.marked⟩
  · exact sound

theorem Moves.grow {R : Rules} {candidate : Node → Node → Prop} {s t : State}
    (moves : Moves R candidate s t) : ∃ new : List (Node × Node),
      t.qO = s.qO ++ new.map Prod.fst ∧ t.qT = s.qT ++ new.map Prod.snd ∧
      pushedO t.log = pushedO s.log ++ new.map Prod.fst ∧
      pushedT t.log = pushedT s.log ++ new.map Prod.snd ∧ ∀ x ∈ new, candidate x.1 x.2 := by
  induction moves with
  | refl => exact ⟨[], by simp, by simp, by simp, by simp, by simp⟩
  | tail _ move ih =>
    obtain ⟨new, qO, qT, logO, logT, chosen⟩ := ih
    cases move with
    | @push p c uniq chosen' _ _ _ =>
      refine ⟨new ++ [(p, c)], ?_, ?_, ?_, ?_, ?_⟩
      · simp [State.push, qO]
      · simp [State.push, qT]
      · simp [State.push, logO, Event.plains]
      · simp [State.push, logT, Event.ciphers]
      · intro x member
        rcases List.mem_append.mp member with old | late
        · exact chosen x old
        · rw [List.mem_singleton.mp late]
          exact chosen'
    | skip =>
      refine ⟨new, qO, qT, ?_, ?_, chosen⟩
      · simp [State.skip, logO, Event.plains]
      · simp [State.skip, logT, Event.ciphers]

theorem Sound.iteration {R : Rules} {candidate : Node → Node → Prop} {s t : State} (sound : Sound s)
    (iteration : Iteration R candidate s t) : Sound t := by
  obtain ⟨p, c, mid, headO, headT, moves, rfl⟩ := iteration
  obtain ⟨new, qO, qT, -⟩ := moves.grow
  have queues : (s.examine p c).qO = s.qO ∧ (s.examine p c).qT = s.qT := by
    unfold State.examine
    split <;> exact ⟨rfl, rfl⟩
  refine ((sound.examine p c).moves moves).take ?_ ?_
  · rw [qO, queues.1]
    intro vacant
    rw [(List.append_eq_nil_iff.mp vacant).1] at headO
    cases headO
  · rw [qT, queues.2]
    intro vacant
    rw [(List.append_eq_nil_iff.mp vacant).1] at headT
    cases headT

theorem aligned_iteration {R : Rules} {candidate : Node → Node → Prop} {s t : State}
    (iteration : Iteration R candidate s t) (aligned : Aligned s.log) : Aligned t.log := by
  obtain ⟨p, c, mid, -, -, moves, rfl⟩ := iteration
  show Aligned mid.log
  exact aligned_moves moves ((examine_log s p c).symm ▸ aligned)

/-- Pairs are enqueued only while `q_o` is below its limit. -/
def Roomy (limit : Nat) (log : List Event) : Prop := ∀ p c held, .paired p c held ∈ log → held < limit

theorem roomy_iteration {R : Rules} {candidate : Node → Node → Prop} {s t : State}
    (iteration : Iteration R candidate s t) (roomy : Roomy R.limit s.log) : Roomy R.limit t.log := by
  obtain ⟨p, c, mid, -, -, moves, rfl⟩ := iteration
  refine moves.keep (I := fun s => Roomy R.limit s.log) (fun u v roomy move => ?_)
    ((examine_log s p c).symm ▸ roomy)
  cases move with
  | push chosen fresh room marked =>
    intro p c held member
    rcases List.mem_append.mp member with old | new
    · exact roomy p c held old
    · cases List.mem_singleton.mp new
      exact room
  | skip =>
    intro p c held member
    rcases List.mem_append.mp member with old | new
    · exact roomy p c held old
    · cases List.mem_singleton.mp new

end EncryptedDedup.Attack
