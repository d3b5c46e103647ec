import EncryptedDedup.SingleStream.RankSimulation

/-!
# `entropy_attack` with a window of one

When the distribution-based attack with a single candidate per rank and no threshold enqueues the
pairs of the locality-based attack.
-/

namespace EncryptedDedup.EntropyAttack
open Attack

variable {D : Type} [LinearOrder D] {P : PriorityQueue Node cmp} {A : Arith D} {d : Databases} {args : Args}

/-! ### Entering the main loops -/

/-- Frequency tables with enough chunks, and parameters for which both attacks are defined. -/
structure Degenerate (P : PriorityQueue Node cmp) (A : Arith D) (d : Databases) (args : Args) : Prop where
  unleaked : args.leakRate = 0
  init : 0 < args.init
  enoughO : args.init ≤ d.origin.entries.length
  enoughT : args.init ≤ d.target.entries.length
  room : args.init ≤ args.queueLimit
  thK : 0 < args.thK
  arrays : args.init ≤ maxU ∧ args.thK ≤ maxU
  counts : ∀ e, e ∈ d.origin.entries ∨ e ∈ d.target.entries → (nodeOf e).isSome
  readable : d.Readable
  near : NearDistances P A d

theorem pairUp_all (omp tmp : List Node) (s : State) (level : omp.length = tmp.length)
    (distinct : (tmp.map Node.key).Nodup) (fresh : ∀ c ∈ tmp, c.key ∉ s.uniq.keys)
    (room : s.qO.length + omp.length ≤ args.queueLimit) :
    (LocalityAttack.pairUp args.queueLimit omp tmp s).qO = s.qO ++ omp ∧
    (LocalityAttack.pairUp args.queueLimit omp tmp s).qT = s.qT ++ tmp ∧
    inferred (LocalityAttack.pairUp args.queueLimit omp tmp s).log = inferred s.log ++ omp.zip tmp ∧
    pushedKeys (LocalityAttack.pairUp args.queueLimit omp tmp s).log = pushedKeys s.log ++ tmp.map Node.key := by
  induction omp generalizing tmp s with
  | nil =>
    obtain rfl := List.eq_nil_of_length_eq_zero level.symm
    simp [LocalityAttack.pairUp]
  | cons p omp ih =>
    cases tmp with
    | nil => cases level
    | cons c tmp =>
      rw [List.map_cons, List.nodup_cons] at distinct
      rw [List.length_cons] at room
      have unmarked : ¬ s.uniq.contains c.key = true := by
        rw [OrderedMap.contains_iff]
        exact fresh c List.mem_cons_self
      rw [LocalityAttack.pairUp, if_neg unmarked, if_neg (by omega)]
      have fresh' : ∀ c' ∈ tmp, c'.key ∉ (s.uniq.put c.key (countText c.count)).keys := by
        intro c' member
        rw [OrderedMap.mem_keys_put, not_or]
        exact ⟨fun same => distinct.1 (same ▸ List.mem_map_of_mem member), fresh c' (List.mem_cons_of_mem _ member)⟩
      have room' : (s.qO ++ [p]).length + omp.length ≤ args.queueLimit := by
        rw [List.length_append, List.length_singleton]
        omega
      obtain ⟨qO, qT, pairs, keys⟩ := ih tmp (s.push p c (s.uniq.put c.key (countText c.count)))
        (by simpa using level) distinct.2 fresh' room'
      rw [qO, qT, pairs, keys]
      simp [State.push, Event.pairs, pushedKeys_concat, Event.ciphers]

theorem start_related (degenerate : Degenerate P A d args) :
    ∃ s₀ l₀, start P A (rankTuning A) d args = some s₀ ∧ LocalityAttack.start P d args = some l₀ ∧
      Aligned l₀.log ∧ (Related args.queueLimit s₀.toState l₀ ∨ Apart args.queueLimit s₀.toState l₀) := by
  obtain ⟨s₁, stat⟩ := statDb_isSome (d := d) args fun rate => absurd degenerate.unleaked rate
  have leaked := statDb_leaked stat
  have empty := leaked.unused degenerate.unleaked
  obtain ⟨o, topO⟩ := topChunks_isSome (P := P) degenerate.init fun e member => degenerate.counts e (Or.inl member)
  obtain ⟨t, topT⟩ := topChunks_isSome (P := P) degenerate.init fun e member => degenerate.counts e (Or.inr member)
  obtain ⟨sizeO, -, -⟩ := topChunks_spec topO
  obtain ⟨sizeT, distinct, -⟩ := topChunks_spec topT
  rw [Nat.min_eq_left degenerate.enoughO] at sizeO
  rw [Nat.min_eq_left degenerate.enoughT] at sizeT
  have level : o.length = t.length := sizeO.trans sizeT.symm
  obtain ⟨⟨origins, targets⟩, measured⟩ := candidates_isSome (P := P) (A := A) degenerate.readable
    (sizeO.le.trans degenerate.arrays.1) (sizeT.le.trans degenerate.arrays.1)
  let l₀ : State := { s₁ with
    qO := s₁.qO ++ o
    uniq := LocalityAttack.markAll s₁.uniq t
    qT := s₁.qT ++ t
    log := s₁.log ++ [.ranked o t] }
  refine ⟨⟨(peakToPair A (rankTuning A) args.queueLimit 0 origins targets s₁).state, 0, 0, 0⟩, l₀, ?_, ?_, ?_, ?_⟩
  · simp [start, stat, scan, degenerate.unleaked, topCandidates, topO, topT, measured]
  · simp [LocalityAttack.start, stat, LocalityAttack.scan, degenerate.unleaked, topO, topT, l₀]
  · show Aligned (s₁.log ++ [.ranked o t])
    rw [empty]
    exact LocalityAttack.aligned_ranked level
  -- `locality_attack` enters its loop as if it had paired up the two scans one by one.
  have qO : s₁.qO = [] := by rw [leaked.queueO, empty]; rfl
  have qT : s₁.qT = [] := by rw [leaked.queueT, empty]; rfl
  have unmarked : ∀ k, k ∉ s₁.uniq.keys := by
    intro k
    rw [leaked.marked k, empty]
    exact List.not_mem_nil
  have same : Related args.queueLimit s₁ s₁ := by
    refine ⟨rfl, rfl, rfl, ⟨leaked.aligned, leaked.aligned⟩, leaked.marked, fun k => (leaked.marked k).mpr, ?_⟩
    intro before c held after split
    rw [empty] at split
    exact absurd split.symm (List.append_ne_nil_of_right_ne_nil _ (List.cons_ne_nil _ _))
  have room : s₁.qO.length + o.length ≤ args.queueLimit := by
    rw [qO, sizeO]
    simpa using degenerate.room
  obtain ⟨allO, allT, pairs, keys⟩ := pairUp_all o t s₁ level distinct (fun c _ => unmarked c.key) room
  have pushed : pushedKeys (s₁.log ++ [.ranked o t]) = pushedKeys s₁.log ++ t.map Node.key := pushedKeys_concat _ _
  rcases peakToPair_pairUp args 0 degenerate.near measured level (Or.inl same) with related | apart
  · refine Or.inl ⟨related.qO.trans allO, related.qT.trans allT, ?_, ⟨related.aligned.1, ?_⟩, fun k => ?_,
      related.marked, related.fair⟩
    · rw [related.same, pairs]
      exact (inferred_concat s₁.log (.ranked o t)).symm
    · show Aligned (s₁.log ++ [.ranked o t])
      rw [empty]
      exact LocalityAttack.aligned_ranked level
    · show k ∈ (LocalityAttack.markAll s₁.uniq t).keys ↔ k ∈ pushedKeys (s₁.log ++ [.ranked o t])
      rw [LocalityAttack.keys_markAll, pushed, List.mem_append]
      exact or_congr_left (leaked.marked k)
  · obtain ⟨k, marked, unpushed, unfair, ahead⟩ := apart
    refine Or.inr ⟨k, marked, unpushed, unfair, ?_⟩
    show k ∈ pushedKeys (s₁.log ++ [.ranked o t])
    rw [pushed, ← keys]
    exact ahead

/-! ### Whole runs -/

theorem apart_iteration {candidate : Node → Node → Prop} {s t l : State} (apart : Apart args.queueLimit s l)
    (iteration : Iteration (rules args) candidate s t) : Apart args.queueLimit t l := by
  obtain ⟨p, c, mid, -, -, moves, rfl⟩ := iteration
  have examined : Apart args.queueLimit (s.examine p c) l := by
    unfold State.examine
    split
    · exact apart
    · exact apart
  show Apart args.queueLimit mid l
  exact examined.moves moves

theorem head_related {s₀ s : EntropyState} {l₀ : State} {n : Nat} (near : NearDistances P A d)
    (begun : Related args.queueLimit s₀.toState l₀ ∨ Apart args.queueLimit s₀.toState l₀)
    (tested : (mainLoop P A (rankTuning A) d args).Tests s₀ n s) :
    (∃ l, (LocalityAttack.mainLoop P d args).Tests l₀ n l ∧ Related args.queueLimit s.toState l) ∨
      ∃ m l, (LocalityAttack.mainLoop P d args).Tests l₀ m l ∧ Apart args.queueLimit s.toState l := by
  refine Loop.simulate _ (LocalityAttack.mainLoop P d args) (fun s l => Related args.queueLimit s.toState l)
    (fun s l => Apart args.queueLimit s.toState l) begun ?_ ?_ tested
  · intro t l u related guarded moved
    obtain ⟨l', moved', together⟩ := iterate_related near related moved
    refine ⟨?_, l', moved', together⟩
    rw [LocalityAttack.guard_iff, ← related.qO, ← related.qT]
    exact guard_iff.mp guarded
  · intro t l u apart moved
    exact apart_iteration apart (iterate_iteration moved)

theorem snd_enqueued {log : List Event} (aligned : Aligned log) :
    (enqueued log).map Prod.snd = pushedKeys log := by
  rw [enqueued, pushedKeys, aligned.2, List.map_map, List.map_map]
  rfl

theorem run_start {fuel : Nat} {T : Tuning D} {s₀ s : EntropyState} (started : start P A T d args = some s₀)
    (finished : run P A T d args fuel = .finished s) :
    ∃ n, (mainLoop P A T d args).Tests s₀ n s ∧ (mainLoop P A T d args).guard s = false := by
  unfold run at finished
  rw [started] at finished
  obtain ⟨n, -, tested, stopped⟩ := Loop.run_finished _ finished
  exact ⟨n, tested, stopped⟩

omit [LinearOrder D] in
theorem locality_run_start {fuel : Nat} {l₀ l : State} (started : LocalityAttack.start P d args = some l₀)
    (finished : LocalityAttack.run P d args fuel = .finished l) :
    ∃ n, (LocalityAttack.mainLoop P d args).Tests l₀ n l ∧
      (LocalityAttack.mainLoop P d args).guard l = false := by
  unfold LocalityAttack.run at finished
  rw [started] at finished
  obtain ⟨n, -, tested, stopped⟩ := Loop.run_finished _ finished
  exact ⟨n, tested, stopped⟩

/-- Within each frequency table and each neighbour list, all counts differ. -/
def DistinctCounts (d : Databases) : Prop :=
  (∀ db ∈ [d.origin, d.target], (db.entries.map fun e => load64 e.2 0).Nodup) ∧
  ∀ db ∈ [d.leftO, d.rightO, d.leftT, d.rightT], ∀ e ∈ db.entries,
    (((records e.2).getD []).map Node.count).Nodup

theorem degenerate_swapped : Degenerate listHeap rationals swappedDatabases swappedArgs where
  unleaked := rfl
  init := by decide
  enoughO := by decide +kernel
  enoughT := by decide +kernel
  room := by decide
  thK := by decide
  arrays := by decide
  counts := by
    have read : ∀ db ∈ [swappedDatabases.origin, swappedDatabases.target], ∀ e ∈ db.entries, (nodeOf e).isSome := by
      decide +kernel
    rintro e (member | member)
    · exact read _ (by simp) e member
    · exact read _ (by simp) e member
  readable := by
    constructor <;> unfold Attack.Readable <;> decide +kernel
  near := by
    -- Every chunk has one neighbour on a side at most, so all entropies are 0.
    intro n n' t o measuredT measuredO
    have entropiesT : t.left = 0 ∧ t.right = 0 := by
      refine measure_of_entries (· = 0) ?_ ?_ ?_ measuredT <;> decide +kernel
    have entropiesO : o.left = 0 ∧ o.right = 0 := by
      refine measure_of_entries (· = 0) ?_ ?_ ?_ measuredO <;> decide +kernel
    rw [entropiesT.1, entropiesT.2, entropiesO.1, entropiesO.2]
    decide +kernel

end EncryptedDedup.EntropyAttack
