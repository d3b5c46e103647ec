import EncryptedDedup.SingleStream.EntropyAttack
import EncryptedDedup.SingleStream.Neighbours

/-!
# Runs of `entropy_attack`
-/

namespace EncryptedDedup.EntropyAttack
open Attack

def rules (args : Args) : Rules where
  limit := args.queueLimit
  marks p c := [c.key, p.key]
  marks_cipher _ _ := List.mem_cons_self

variable {D : Type} {P : PriorityQueue Node cmp} {A : Arith D} {T : Tuning D} {d : Databases} {args : Args}

/-! ### Choosing a candidate -/

theorem mem_window {flag i j : Nat} {origins : List (Candidate D)} {o : Candidate D}
    (inside : (o, j) ∈ window T flag i origins) : origins[j]? = some o := by
  have somewhere := List.mem_of_mem_drop (List.mem_of_mem_take inside)
  exact List.mk_mem_zipIdx_iff_getElem?.mp somewhere

theorem assign_move {candidate : Node → Node → Prop} {m : Matching D} {t o : Candidate D} {j : Nat}
    (chosen : candidate o.node t.node) (fresh : t.node.key ∉ m.state.uniq.keys)
    (room : m.state.qO.length < args.queueLimit) :
    Move (rules args) candidate m.state (m.assign T t o j).state := by
  refine .push chosen fresh room fun k => ?_
  rw [OrderedMap.mem_keys_put, OrderedMap.mem_keys_put]
  show _ ↔ _ ∨ k ∈ [t.node.key, o.node.key]
  rw [List.mem_cons, List.mem_singleton]
  tauto

theorem assign_origins {m : Matching D} {t o : Candidate D} {j : Nat} (here : m.origins[j]? = some o) :
    (m.assign T t o j).origins.map Candidate.node = m.origins.map Candidate.node := by
  obtain ⟨inside, value⟩ := List.getElem?_eq_some_iff.mp here
  have bound : j < (m.origins.map Candidate.node).length := by rwa [List.length_map]
  have same : o.node = (m.origins.map Candidate.node)[j] := by
    rw [List.getElem_map, value]
  show (m.origins.set j _).map Candidate.node = _
  rw [List.map_set]
  dsimp only
  rw [same, List.set_getElem_self]

variable [LinearOrder D]

/-- The inner loop keeps what it had or moves to an admissible candidate. -/
theorem foldl_nearer (t : Candidate D) (cs : List (Candidate D × Nat)) (best : D × Option (Candidate D × Nat)) :
    cs.foldl (nearer A T t) best = best ∨
    ∃ o ∈ cs, cs.foldl (nearer A T t) best = (dist A t.left t.right o.1.left o.1.right, some o) ∧
      T.admissible (dist A t.left t.right o.1.left o.1.right) = true := by
  induction cs generalizing best with
  | nil => exact Or.inl rfl
  | cons o cs ih =>
    rw [List.foldl_cons]
    rcases ih (nearer A T t best o) with kept | ⟨x, member, moved, admissible⟩
    · rw [kept]
      unfold nearer
      dsimp only
      split
      · rename_i better
        rw [Bool.and_eq_true] at better
        exact Or.inr ⟨o, List.mem_cons_self, rfl, better.1⟩
      · exact Or.inl rfl
    · exact Or.inr ⟨x, List.mem_cons_of_mem _ member, moved, admissible⟩

theorem closest_spec {t o : Candidate D} {flag i j : Nat} {origins : List (Candidate D)}
    (found : (closest A T t (window T flag i origins)).2 = some (o, j)) :
    origins[j]? = some o ∧ T.admissible (dist A t.left t.right o.left o.right) = true := by
  unfold closest at found
  rcases foldl_nearer (A := A) (T := T) t (window T flag i origins) (T.maxInt, none) with kept | ⟨x, member, moved, admissible⟩
  · rw [kept] at found
    cases found
  · rw [moved] at found
    obtain rfl := Option.some.inj found
    exact ⟨mem_window member, admissible⟩

/-! ### The pairing loop -/

theorem turns_cons (queueLimit flag i : Nat) (t : Candidate D) (targets : List (Candidate D)) (m : Matching D) :
    turns A T queueLimit flag i (t :: targets) m = turns A T queueLimit flag (i + 1) targets m ∨
    (t.node.key ∈ m.state.uniq.keys ∧ turns A T queueLimit flag i (t :: targets) m =
      turns A T queueLimit flag (i + 1) targets { m with state := m.state.skip t.node }) ∨
    turns A T queueLimit flag i (t :: targets) m = m ∨
    ∃ o j, m.origins[j]? = some o ∧ T.admissible (dist A t.left t.right o.left o.right) = true ∧
      t.node.key ∉ m.state.uniq.keys ∧ m.state.qO.length < queueLimit ∧
      turns A T queueLimit flag i (t :: targets) m =
        turns A T queueLimit flag (i + 1) targets (m.assign T t o j) := by
  rw [turns]
  split
  · exact Or.inl rfl
  · rename_i o j found
    obtain ⟨here, admissible⟩ := closest_spec found
    split
    · rename_i marked
      exact Or.inr (Or.inl ⟨OrderedMap.contains_iff.mp marked, rfl⟩)
    · rename_i unmarked
      split
      · exact Or.inr (Or.inr (Or.inl rfl))
      · refine Or.inr (Or.inr (Or.inr ⟨o, j, here, admissible, ?_, by omega, rfl⟩))
        exact fun member => unmarked (OrderedMap.contains_iff.mpr member)

theorem turns_moves {candidate : Node → Node → Prop} (flag i : Nat) (targets : List (Candidate D))
    (m : Matching D) (near : ∀ p ∈ m.origins.map Candidate.node, ∀ t ∈ targets, candidate p t.node) :
    Moves (rules args) candidate m.state (turns A T args.queueLimit flag i targets m).state := by
  induction targets generalizing i m with
  | nil => exact .refl
  | cons t targets ih =>
    have rest : ∀ p ∈ m.origins.map Candidate.node, ∀ t ∈ targets, candidate p t.node :=
      fun p inside t member => near p inside t (List.mem_cons_of_mem _ member)
    rcases turns_cons (A := A) (T := T) args.queueLimit flag i t targets m with
      same | ⟨marked, same⟩ | same | ⟨o, j, here, -, fresh, room, same⟩
    · rw [same]
      exact ih (i + 1) m rest
    · rw [same]
      exact .head (.skip marked) (ih (i + 1) { m with state := m.state.skip t.node } rest)
    · rw [same]
    · rw [same]
      refine .head (assign_move ?_ fresh room) (ih (i + 1) _ ?_)
      · exact near _ (List.mem_map_of_mem (List.mem_of_getElem? here)) t List.mem_cons_self
      · rw [assign_origins here]
        exact rest

/-! ### Candidates -/

theorem measure_node {type : Side} {num : Nat} {ne : Node} {c : Candidate D}
    (measured : measure A P d type num ne = some c) : c.node = ne := by
  unfold measure at measured
  obtain ⟨left, -, measured⟩ := Option.bind_eq_some_iff.mp measured
  obtain ⟨right, -, measured⟩ := Option.bind_eq_some_iff.mp measured
  rw [← Option.some.inj measured]

theorem mapM_measure_nodes {type : Side} {num : Nat} {stack : List Node} {measured : List (Candidate D)}
    (run : stack.mapM (measure A P d type num) = some measured) : measured.map Candidate.node = stack := by
  have nodes := map_of_mapM (g := Candidate.node) (h := id) (fun _ _ => measure_node) run
  rwa [List.map_id] at nodes

theorem candidates_nodes {omp tmp : List Node} {origins targets : List (Candidate D)}
    (measured : candidates P A d omp tmp = some (origins, targets)) :
    origins.map Candidate.node = omp ∧ targets.map Candidate.node = tmp := by
  unfold candidates getEntropy at measured
  obtain ⟨o, measuredO, measured⟩ := Option.bind_eq_some_iff.mp measured
  obtain ⟨t, measuredT, measured⟩ := Option.bind_eq_some_iff.mp measured
  obtain ⟨rfl, rfl⟩ := Prod.mk.inj (Option.some.inj measured)
  split at measuredO
  · split at measuredT
    · exact ⟨mapM_measure_nodes measuredO, mapM_measure_nodes measuredT⟩
    · cases measuredT
  · cases measuredO

theorem candidates_related {omp tmp : List Node} {origins targets : List (Candidate D)} {Q : Node → Node → Prop}
    (measured : candidates P A d omp tmp = some (origins, targets)) (related : ∀ p ∈ omp, ∀ c ∈ tmp, Q p c) :
    ∀ p ∈ origins.map Candidate.node, ∀ t ∈ targets, Q p t.node := by
  obtain ⟨nodesO, nodesT⟩ := candidates_nodes measured
  rw [nodesO]
  intro p onO t member
  apply related p onO
  rw [← nodesT]
  exact List.mem_map_of_mem member

theorem leftCandidates_spec {p c : Node} {origins targets : List (Candidate D)}
    (stacked : leftCandidates P A d args p c = some (origins, targets)) :
    ∀ p ∈ origins.map Candidate.node, ∀ t ∈ targets, Neighbours d p t.node := by
  unfold leftCandidates at stacked
  obtain ⟨⟨omp, tmp⟩, built, measured⟩ := Option.bind_eq_some_iff.mp stacked
  exact candidates_related measured (leftStacks_spec built).neighbours

theorem rightCandidates_spec {p c : Node} {origins targets : List (Candidate D)}
    (stacked : rightCandidates P A d args p c = some (origins, targets)) :
    ∀ p ∈ origins.map Candidate.node, ∀ t ∈ targets, Neighbours d p t.node := by
  unfold rightCandidates at stacked
  obtain ⟨⟨omp, tmp⟩, built, measured⟩ := Option.bind_eq_some_iff.mp stacked
  exact candidates_related measured (rightStacks_spec built).neighbours

def Known (d : Databases) (p c : Node) : Prop := p.key ∈ d.origin.keys ∧ c.key ∈ d.target.keys

theorem topCandidates_spec {origins targets : List (Candidate D)}
    (stacked : topCandidates P A d args = some (origins, targets)) :
    ∀ p ∈ origins.map Candidate.node, ∀ t ∈ targets, Known d p t.node := by
  unfold topCandidates at stacked
  obtain ⟨tmpA, topO, stacked⟩ := Option.bind_eq_some_iff.mp stacked
  obtain ⟨tmpB, topT, measured⟩ := Option.bind_eq_some_iff.mp stacked
  refine candidates_related measured fun p onO c onT => ⟨?_, ?_⟩
  · exact (topChunks_spec topO).2.2 p onO
  · exact (topChunks_spec topT).2.2 c onT

/-! ### Iterations -/

theorem inspect_toState (s : EntropyState) (p c : Node) : (s.inspect p c).toState = s.toState.examine p c := by
  unfold EntropyState.inspect
  split
  · split <;> rfl
  · split <;> rfl

theorem iterate_parts {s t : EntropyState} (moved : iterate P A T d args s = some t) :
    ∃ p c origins targets origins' targets', s.qO.head? = some p ∧ s.qT.head? = some c ∧
      leftCandidates P A d args p c = some (origins, targets) ∧
      rightCandidates P A d args p c = some (origins', targets') ∧
      t.toState = (peakToPair A T args.queueLimit 1 origins' targets'
        (peakToPair A T args.queueLimit 1 origins targets (s.inspect p c).toState).state).state.take := by
  unfold iterate at moved
  obtain ⟨p, headO, moved⟩ := Option.bind_eq_some_iff.mp moved
  obtain ⟨c, headT, moved⟩ := Option.bind_eq_some_iff.mp moved
  obtain ⟨⟨origins, targets⟩, left, moved⟩ := Option.bind_eq_some_iff.mp moved
  obtain ⟨⟨origins', targets'⟩, right, moved⟩ := Option.bind_eq_some_iff.mp moved
  refine ⟨p, c, origins, targets, origins', targets', headO, headT, left, right, ?_⟩
  rw [← Option.some.inj moved]

theorem iterate_iteration {s t : EntropyState} (moved : iterate P A T d args s = some t) :
    Iteration (rules args) (Neighbours d) s.toState t.toState := by
  obtain ⟨p, c, origins, targets, origins', targets', headO, headT, left, right, same⟩ := iterate_parts moved
  rw [inspect_toState] at same
  refine ⟨p, c, _, headO, headT, ?_, same⟩
  exact (turns_moves 1 0 targets ⟨_, origins, []⟩ (leftCandidates_spec left)).trans
    (turns_moves 1 0 targets' ⟨_, origins', []⟩ (rightCandidates_spec right))

theorem guard_iff {s : EntropyState} : (mainLoop P A T d args).guard s = true ↔ s.qO ≠ [] ∧ s.qT ≠ [] := by
  simp [mainLoop]

theorem start_moves {s : EntropyState} (started : start P A T d args = some s) :
    ∃ s₁, statDb d args = some s₁ ∧ Moves (rules args) (Known d) s₁ s.toState := by
  unfold start at started
  obtain ⟨s₁, stat, started⟩ := Option.bind_eq_some_iff.mp started
  obtain ⟨s₂, scanned, started⟩ := Option.bind_eq_some_iff.mp started
  obtain rfl := Option.some.inj started
  refine ⟨s₁, stat, ?_⟩
  unfold scan at scanned
  split at scanned
  · obtain ⟨⟨origins, targets⟩, stacked, scanned⟩ := Option.bind_eq_some_iff.mp scanned
    rw [← Option.some.inj scanned]
    exact turns_moves 0 0 targets ⟨s₁, origins, []⟩ (topCandidates_spec stacked)
  · rw [Option.some.inj scanned]

theorem start_sound {s : EntropyState} (started : start P A T d args = some s) :
    Sound s.toState ∧ Aligned s.log ∧ Counted d 0 s.toState := by
  obtain ⟨s₁, stat, moves⟩ := start_moves started
  have leaked := statDb_leaked stat
  exact ⟨leaked.sound.moves moves, aligned_moves moves leaked.aligned,
    leaked.counted.moves (fun _ _ known => known) moves⟩

theorem head_sound {s₀ s : EntropyState} {n : Nat} (started : start P A T d args = some s₀)
    (tested : (mainLoop P A T d args).Tests s₀ n s) : Sound s.toState ∧ Aligned s.log := by
  obtain ⟨sound, aligned, -⟩ := start_sound started
  refine Loop.invariant _ (I := fun s => Sound s.toState ∧ Aligned s.log) ⟨sound, aligned⟩ ?_ tested
  rintro t u ⟨sound, aligned⟩ - moved
  have iteration := iterate_iteration moved
  exact ⟨sound.iteration iteration, aligned_iteration iteration aligned⟩

/-! ### Numbers to compute with -/

/-- Rational arithmetic. The square root is rounded down to six digits, and the logarithm is a
quotient that is close to it around 1. -/
def rationals : Arith ℚ where
  ofNat n := n
  add := (· + ·)
  sub := (· - ·)
  mul := (· * ·)
  div := (· / ·)
  neg := (- ·)
  log x := 3 * (x * x - 1) / (x * x + 4 * x + 1)
  sqrt x := (x * 10 ^ 12).floor.toNat.sqrt / 10 ^ 6

end EncryptedDedup.EntropyAttack
