import EncryptedDedup.SingleStream.LocalityAttack
import EncryptedDedup.SingleStream.Neighbours

/-!
# Runs of `locality_attack`
-/

namespace EncryptedDedup.LocalityAttack
open Attack

/-- Only the ciphertext half of a pair is marked. -/
def rules (args : Args) : Rules where
  limit := args.queueLimit
  marks _ c := [c.key]
  marks_cipher _ _ := List.mem_singleton_self _

variable {P : PriorityQueue Node cmp} {d : Databases} {args : Args}

/-! ### The pairing loop -/

theorem pairUp_moves {candidate : Node → Node → Prop} (omp tmp : List Node) (s : State)
    (candidates : ∀ p ∈ omp, ∀ c ∈ tmp, candidate p c) :
    Moves (rules args) candidate s (pairUp args.queueLimit omp tmp s) := by
  induction omp generalizing tmp s with
  | nil => exact .refl
  | cons p omp ih =>
    cases tmp with
    | nil => exact .refl
    | cons c tmp =>
      have rest : ∀ p ∈ omp, ∀ c ∈ tmp, candidate p c := fun p onO c onT =>
        candidates p (List.mem_cons_of_mem _ onO) c (List.mem_cons_of_mem _ onT)
      rw [pairUp]
      split
      · exact ih tmp s rest
      · rename_i unmarked
        split
        · exact .refl
        · rename_i room
          refine .head ?_ (ih tmp _ rest)
          refine .push (candidates p List.mem_cons_self c List.mem_cons_self) ?_ ?_ ?_
          · exact fun member => unmarked (OrderedMap.contains_iff.mpr member)
          · show s.qO.length < args.queueLimit
            omega
          · intro k
            rw [OrderedMap.mem_keys_put, or_comm]
            exact or_congr_right List.mem_singleton.symm

/-! ### Iterations -/

theorem iterate_iteration {s t : State} (moved : iterate P d args s = some t) :
    Iteration (rules args) (Neighbours d) s t := by
  unfold iterate at moved
  obtain ⟨p, headO, moved⟩ := Option.bind_eq_some_iff.mp moved
  obtain ⟨c, headT, moved⟩ := Option.bind_eq_some_iff.mp moved
  obtain ⟨⟨ompL, tmpL⟩, left, moved⟩ := Option.bind_eq_some_iff.mp moved
  obtain ⟨⟨ompR, tmpR⟩, right, moved⟩ := Option.bind_eq_some_iff.mp moved
  refine ⟨p, c, _, headO, headT, ?_, (Option.some.inj moved).symm⟩
  exact (pairUp_moves ompL tmpL _ (leftStacks_spec left).neighbours).trans
    (pairUp_moves ompR tmpR _ (rightStacks_spec right).neighbours)

theorem guard_iff {s : State} : (mainLoop P d args).guard s = true ↔ s.qO ≠ [] ∧ s.qT ≠ [] := by
  simp [mainLoop]

theorem iterate_isSome (readable : d.Readable) (positive : 0 < args.thK) {s : State}
    (guarded : (mainLoop P d args).guard s = true) : ∃ t, iterate P d args s = some t := by
  obtain ⟨filledO, filledT⟩ := guard_iff.mp guarded
  obtain ⟨p, restO, qO⟩ := List.exists_cons_of_ne_nil filledO
  obtain ⟨c, restT, qT⟩ := List.exists_cons_of_ne_nil filledT
  obtain ⟨⟨⟨ompL, tmpL⟩, left⟩, ⟨⟨ompR, tmpR⟩, right⟩⟩ := stacks_isSome (P := P) readable positive p c
  simp [iterate, qO, qT, left, right]

/-! ### Entering the loop -/

theorem keys_markAll (uniq : OrderedMap Fp Bytes) (t : List Node) (k : Fp) :
    k ∈ (markAll uniq t).keys ↔ k ∈ uniq.keys ∨ k ∈ t.map Node.key := by
  induction t generalizing uniq with
  | nil => simp [markAll]
  | cons c t ih =>
    show k ∈ (markAll (uniq.put c.key (countText c.count)) t).keys ↔ _
    rw [ih, OrderedMap.mem_keys_put, List.map_cons, List.mem_cons]
    tauto

theorem start_cases {s : State} (started : start P d args = some s) :
    ∃ s₁, Leaked d args d.target.entries s₁ ∧
      ((args.leakRate ≠ 0 ∧ s = s₁) ∨
        (args.leakRate = 0 ∧ ∃ o t, topChunks P d.origin args = some o ∧
          topChunks P d.target args = some t ∧ s₁.log = [] ∧
          s = { s₁ with qO := o, uniq := markAll s₁.uniq t, qT := t, log := [.ranked o t] })) := by
  unfold start at started
  obtain ⟨s₁, stat, scanned⟩ := Option.bind_eq_some_iff.mp started
  have leaked := statDb_leaked stat
  refine ⟨s₁, leaked, ?_⟩
  unfold scan at scanned
  split at scanned
  · rename_i zero
    obtain ⟨o, topO, scanned⟩ := Option.bind_eq_some_iff.mp scanned
    obtain ⟨t, topT, scanned⟩ := Option.bind_eq_some_iff.mp scanned
    refine Or.inr ⟨zero, o, t, topO, topT, leaked.unused zero, ?_⟩
    rw [← Option.some.inj scanned, leaked.queueO, leaked.queueT, leaked.unused zero]
    rfl
  · rename_i rate
    exact Or.inl ⟨rate, (Option.some.inj scanned).symm⟩

theorem start_sound {s : State} (started : start P d args = some s) :
    Sound s ∧ Roomy args.queueLimit s.log ∧ Counted d 0 s := by
  obtain ⟨s₁, leaked, ⟨-, rfl⟩ | ⟨zero, o, t, topO, topT, empty, rfl⟩⟩ := start_cases started
  · exact ⟨leaked.sound, leaked.roomy _, leaked.counted⟩
  · obtain ⟨-, -, inO⟩ := topChunks_spec topO
    obtain ⟨-, unique, inT⟩ := topChunks_spec topT
    have logO : pushedO [.ranked o t] = o := by simp [pushedO, Event.plains]
    have logT : pushedT [.ranked o t] = t := by simp [pushedT, Event.ciphers]
    obtain ⟨wrong, idle, silent⟩ := leaked.untouched
    have counted := leaked.counted
    refine ⟨?_, ?_, ?_⟩
    · refine ⟨?_, ?_, ?_, ?_, ?_, ?_⟩
      · simp only [logO, idle, List.drop_zero]
      · simp only [logT, idle, List.drop_zero]
      · simp only [idle, Nat.zero_le]
      · simp only [idle, Nat.zero_le]
      · simp only [logT, unique]
      · simp only [logT, keys_markAll]
        exact fun c member => Or.inr (List.mem_map_of_mem member)
    · intro p c held member
      cases List.mem_singleton.mp member
    · refine ⟨?_, ?_, ?_, ?_, counted.total, ?_, counted.correct, ?_, ?_, ?_⟩
      · simpa only [logO] using inO
      · simpa only [logT] using inT
      · intro k member
        cases member
      · exact List.nodup_nil
      · have common := counted.common
        rw [empty] at common
        exact common
      · simp only [idle]
        exact Nat.zero_le _
      · simp only [silent, List.map_nil, List.nil_sublist]
      · simp only [silent, List.not_mem_nil, false_implies, implies_true]

theorem head_sound {s₀ s : State} {n : Nat} (started : start P d args = some s₀)
    (tested : (mainLoop P d args).Tests s₀ n s) : Sound s ∧ Roomy args.queueLimit s.log := by
  obtain ⟨sound, roomy, -⟩ := start_sound started
  refine Loop.invariant _ (I := fun s => Sound s ∧ Roomy args.queueLimit s.log) ⟨sound, roomy⟩ ?_ tested
  rintro t u ⟨sound, roomy⟩ - moved
  have iteration := iterate_iteration moved
  exact ⟨sound.iteration iteration, roomy_iteration iteration roomy⟩

/-! ### Lockstep -/

theorem aligned_ranked {o t : List Node} (level : o.length = t.length) : Aligned [.ranked o t] := by
  have pairs : inferred [.ranked o t] = o.zip t := by simp [inferred, Event.pairs]
  rw [Aligned, pairs, List.map_fst_zip level.le, List.map_snd_zip level.ge]
  simp [pushedO, pushedT, Event.plains, Event.ciphers]

theorem head_aligned {s₀ s : State} {n : Nat} (aligned : Aligned s₀.log)
    (tested : (mainLoop P d args).Tests s₀ n s) : Aligned s.log := by
  refine Loop.invariant _ (I := fun s => Aligned s.log) aligned (fun t u aligned _ moved => ?_) tested
  exact aligned_iteration (iterate_iteration moved) aligned

/-- The queues are in lockstep at the head of every iteration exactly if the two scans yield as many
chunks, one of them yields none, or there is no scan. -/
theorem lockstep_iff {s₀ : State} (started : start P d args = some s₀) :
    (∀ n s, (mainLoop P d args).Tests s₀ n s → (mainLoop P d args).guard s = true → Lockstep s) ↔
      args.leakRate ≠ 0 ∨
      min args.init d.origin.entries.length = min args.init d.target.entries.length ∨
      d.origin.entries.length = 0 ∨ d.target.entries.length = 0 := by
  have from_aligned : Aligned s₀.log → ∀ n s, (mainLoop P d args).Tests s₀ n s → Lockstep s := by
    intro aligned n s tested
    exact (head_sound started tested).1.lockstep (head_aligned aligned tested)
  have from_idle : (mainLoop P d args).guard s₀ = false →
      ∀ n s, (mainLoop P d args).Tests s₀ n s → (mainLoop P d args).guard s = true → Lockstep s := by
    intro stopped n s tested guarded
    rw [tested.idle stopped, stopped] at guarded
    cases guarded
  obtain ⟨s₁, leaked, ⟨rate, rfl⟩ | ⟨zero, o, t, topO, topT, -, rfl⟩⟩ := start_cases started
  · exact ⟨fun _ => Or.inl rate, fun _ n s tested _ => from_aligned leaked.aligned n s tested⟩
  · have sizeO := (topChunks_spec topO).1
    have sizeT := (topChunks_spec topT).1
    constructor
    · intro lockstep
      by_contra none_of
      obtain ⟨-, unequal, someO, someT⟩ : _ ∧ _ ∧ _ ∧ _ := by simpa only [not_or] using none_of
      have filledO : o ≠ [] := List.ne_nil_of_length_pos (by omega)
      have filledT : t ≠ [] := List.ne_nil_of_length_pos (by omega)
      have level := (lockstep 0 _ .enter (guard_iff.mpr ⟨filledO, filledT⟩)).1
      exact unequal (sizeO.symm.trans (level.trans sizeT))
    · rintro (rate | level | noneO | noneT)
      · exact absurd zero rate
      · exact fun n s tested _ => from_aligned (aligned_ranked (by omega)) n s tested
      · apply from_idle
        rw [List.eq_nil_of_length_eq_zero (l := o) (by omega)]
        rfl
      · apply from_idle
        rw [List.eq_nil_of_length_eq_zero (l := t) (by omega)]
        exact Bool.and_false _

def unevenDatabases : Databases := .ofTraces "111" "615151"

def unevenArgs : Args := ⟨2, 2, 10, 0, 0, fun _ => 0⟩

theorem lockstep_iff_uneven :
    (∀ n s, (mainLoop listHeap unevenDatabases unevenArgs).Tests
        ((start listHeap unevenDatabases unevenArgs).get (by decide +kernel)) n s →
      (mainLoop listHeap unevenDatabases unevenArgs).guard s = true → Lockstep s) ↔
      unevenArgs.leakRate ≠ 0 ∨
      min unevenArgs.init unevenDatabases.origin.entries.length =
        min unevenArgs.init unevenDatabases.target.entries.length ∨
      unevenDatabases.origin.entries.length = 0 ∨ unevenDatabases.target.entries.length = 0 :=
  lockstep_iff (Option.some_get _).symm

/-- The second iteration examines chunk 1 together with chunk 5, which were never inferred. -/
theorem lockstep_uneven : ∃ s₀ s p c, start listHeap unevenDatabases unevenArgs = some s₀ ∧
    (mainLoop listHeap unevenDatabases unevenArgs).Tests s₀ 1 s ∧
    (mainLoop listHeap unevenDatabases unevenArgs).guard s = true ∧ ¬ Lockstep s ∧
    s.qO.head? = some p ∧ s.qT.head? = some c ∧ (p, c) ∉ inferred s.log := by
  have run : ((start listHeap unevenDatabases unevenArgs).bind
      ((mainLoop listHeap unevenDatabases unevenArgs).after 1)).map
        (fun s => (s.qO, s.qT, inferred s.log)) =
      some ([⟨Fp.ofBytes [1], 2⟩], [⟨Fp.ofBytes [5], 2⟩, ⟨Fp.ofBytes [6], 1⟩],
        [(⟨Fp.ofBytes [1], 3⟩, ⟨Fp.ofBytes [1], 3⟩), (⟨Fp.ofBytes [1], 2⟩, ⟨Fp.ofBytes [6], 1⟩)]) := by
    decide +kernel
  obtain ⟨s, reached, seen⟩ := Option.map_eq_some_iff.mp run
  obtain ⟨s₀, started, after⟩ := Option.bind_eq_some_iff.mp reached
  obtain ⟨qO, qT, pairs⟩ : s.qO = _ ∧ s.qT = _ ∧ inferred s.log = _ := by simpa using seen
  refine ⟨s₀, s, ⟨Fp.ofBytes [1], 2⟩, ⟨Fp.ofBytes [5], 2⟩, started, Loop.tests_of_after _ after, ?_, ?_, ?_, ?_, ?_⟩
  · exact guard_iff.mpr ⟨by simp [qO], by simp [qT]⟩
  · intro lockstep
    have level := lockstep.1
    rw [qO, qT] at level
    cases level
  · rw [qO]
    rfl
  · rw [qT]
    rfl
  · rw [pairs]
    decide

/-! ### Termination -/

theorem iterations_bounded {s₀ s : State} {n : Nat} (started : start P d args = some s₀)
    (tested : (mainLoop P d args).Tests s₀ n s) (guarded : (mainLoop P d args).guard s = true) :
    n < iterationBound d s₀ := by
  refine iterations_lt (R := rules args) (mainLoop P d args) id ?_ ?_ (start_sound started).1 tested guarded
  · exact fun u v moved => iterate_iteration moved
  · exact fun u guarded => (guard_iff.mp guarded).2

theorem start_isSome (legible : d.Legible) (init : args.leakRate = 0 → 0 < args.init) :
    ∃ s₀, start P d args = some s₀ := by
  obtain ⟨s₁, stat⟩ := statDb_isSome args fun _ => legible.counts
  unfold start scan
  by_cases unleaked : args.leakRate = 0
  · obtain ⟨o, topO⟩ := topChunks_isSome (P := P) (init unleaked) fun e member => legible.counts e (Or.inl member)
    obtain ⟨t, topT⟩ := topChunks_isSome (P := P) (init unleaked) fun e member => legible.counts e (Or.inr member)
    simp [stat, unleaked, topO, topT]
  · simp [stat, unleaked]

theorem run_finishes (readable : d.Readable) (positive : 0 < args.thK) {s₀ : State}
    (started : start P d args = some s₀) :
    ∃ s, (mainLoop P d args).run (iterationBound d s₀) s₀ = .finished s := by
  apply Loop.run_defined _ (fun n s _ guarded => iterate_isSome readable positive guarded)
  apply Loop.run_ends
  exact fun n s tested guarded => iterations_bounded started tested guarded

/-- No ciphertext chunk is enqueued twice, the expansion respects the limit, and no more iterations
start than there are chunks to take. With values that can be read, and heaps that may hold something,
the program gets to the end of its loop. -/
theorem worklist_terminates :
    (∀ s₀, start P d args = some s₀ →
      (∀ n s, (mainLoop P d args).Tests s₀ n s →
        ((pushedT s.log).map Node.key).Nodup ∧ Roomy args.queueLimit s.log) ∧
      ∀ n s, (mainLoop P d args).Tests s₀ n s → (mainLoop P d args).guard s = true →
        n < iterationBound d s₀) ∧
    (d.Legible → 0 < args.thK → (args.leakRate = 0 → 0 < args.init) →
      ∃ s₀ s, start P d args = some s₀ ∧ (mainLoop P d args).run (iterationBound d s₀) s₀ = .finished s) := by
  constructor
  · intro s₀ started
    refine ⟨fun n s tested => ?_, fun n s tested guarded => iterations_bounded started tested guarded⟩
    obtain ⟨sound, roomy⟩ := head_sound started tested
    exact ⟨sound.distinct, roomy⟩
  · intro legible positive init
    obtain ⟨s₀, started⟩ := start_isSome (P := P) legible init
    obtain ⟨s, finished⟩ := run_finishes legible.toReadable positive started
    exact ⟨s₀, s, started, finished⟩

theorem legible_uneven : unevenDatabases.Legible := by
  have readable : unevenDatabases.Readable := by
    constructor <;> unfold Attack.Readable <;> decide +kernel
  have counts : ∀ db ∈ [unevenDatabases.origin, unevenDatabases.target], ∀ e ∈ db.entries, (nodeOf e).isSome := by
    decide +kernel
  refine ⟨readable, fun e listed => ?_⟩
  rcases listed with member | member
  · exact counts _ (by simp) e member
  · exact counts _ (by simp) e member

theorem worklist_terminates_uneven :
    (∀ s₀, start listHeap unevenDatabases unevenArgs = some s₀ →
      (∀ n s, (mainLoop listHeap unevenDatabases unevenArgs).Tests s₀ n s →
        ((pushedT s.log).map Node.key).Nodup ∧ Roomy unevenArgs.queueLimit s.log) ∧
      ∀ n s, (mainLoop listHeap unevenDatabases unevenArgs).Tests s₀ n s →
        (mainLoop listHeap unevenDatabases unevenArgs).guard s = true → n < iterationBound unevenDatabases s₀) ∧
    ∃ s₀ s, start listHeap unevenDatabases unevenArgs = some s₀ ∧
      (mainLoop listHeap unevenDatabases unevenArgs).run (iterationBound unevenDatabases s₀) s₀ = .finished s :=
  ⟨worklist_terminates.1, worklist_terminates.2 legible_uneven (by decide) fun _ => by decide⟩

def cutDatabases : Databases := { unevenDatabases with target := unevenDatabases.target.put (Fp.ofBytes [1]) [1, 1, 1] }

/-- With no room in the initial heap, or in the heaps of neighbours, `top()` is called on an empty one;
of a short value, bytes behind its end are read. -/
theorem worklist_undefined :
    (∀ fuel s, run listHeap unevenDatabases { unevenArgs with init := 0 } fuel ≠ .finished s) ∧
    (∀ fuel s, run listHeap unevenDatabases { unevenArgs with thK := 0 } fuel ≠ .finished s) ∧
    ∀ fuel s, run listHeap cutDatabases unevenArgs fuel ≠ .finished s := by
  have unscanned : start listHeap unevenDatabases { unevenArgs with init := 0 } = none := by decide +kernel
  have unread : start listHeap cutDatabases unevenArgs = none := by decide +kernel
  have entered : ∃ s₀, start listHeap unevenDatabases { unevenArgs with thK := 0 } = some s₀ ∧
      (mainLoop listHeap unevenDatabases { unevenArgs with thK := 0 }).guard s₀ = true ∧
      iterate listHeap unevenDatabases { unevenArgs with thK := 0 } s₀ = none := by
    decide +kernel
  obtain ⟨s₀, started, guarded, stuck⟩ := entered
  refine ⟨fun fuel s => ?_, fun fuel s => ?_, fun fuel s => ?_⟩
  · simp [run, unscanned]
  · rw [run, started]
    exact Loop.run_stuck _ guarded stuck fuel
  · simp [run, unread]

end EncryptedDedup.LocalityAttack
