import EncryptedDedup.SingleStream.Inference
import EncryptedDedup.Lib.Fallible
import Mathlib.Data.List.Induction

/-!
# Leaked chunks and counted chunks

What `stat_db` leaves behind, and why no ciphertext chunk is counted twice afterwards.
-/

namespace EncryptedDedup.Attack

structure Leaked (d : Databases) (args : Args) (entries : List (Fp × Bytes)) (s : State) : Prop where
  queueO : s.qO = pushedO s.log
  queueT : s.qT = pushedT s.log
  aligned : Aligned s.log
  /-- A chunk is enqueued or known to be missing, and never both. -/
  distinct : ((pushedT s.log).map Node.key ++ unknown s.log).Nodup
  listed : ∀ k ∈ (pushedT s.log).map Node.key ++ unknown s.log, k ∈ entries.map Prod.fst
  marked : ∀ k, k ∈ s.uniq.keys ↔ k ∈ (pushedT s.log).map Node.key
  halves : ∀ x ∈ inferred s.log, x.1.key = x.2.key ∧ x.1.key ∈ d.origin.keys
  absent : ∀ k ∈ unknown s.log, k ∉ d.origin.keys
  total : s.total = entries.length
  common : s.common = s.leak + (unknown s.log).length
  untouched : s.correct = 0 ∧ s.involve = 0 ∧ s.ansq = []
  events : ∀ e ∈ s.log, (∃ p c, e = .leaked p c) ∨ ∃ k, e = .missed k
  unused : args.leakRate = 0 → s.log = []

theorem leaked_init (d : Databases) (args : Args) : Leaked d args [] .init := by
  refine ⟨rfl, rfl, ⟨rfl, rfl⟩, List.nodup_nil, ?_, ?_, ?_, ?_, rfl, rfl, ⟨rfl, rfl, rfl⟩, ?_, fun _ => rfl⟩
  · exact fun k member => member
  · exact fun k => Iff.rfl
  · intro x member
    cases member
  · intro k member
    cases member
  · intro e member
    cases member

theorem nodeOf_key {e : Fp × Bytes} {n : Node} (read : nodeOf e = some n) : n.key = e.1 := by
  unfold nodeOf at read
  obtain ⟨count, -, same⟩ := Option.bind_eq_some_iff.mp read
  rw [← Option.some.inj same]

theorem statEntry_cases {d : Databases} {args : Args} {s t : State} {e : Fp × Bytes}
    (turn : statEntry d args s e = some t) :
    (t = { s with total := s.total + 1 }) ∨
    (args.leakRate ≠ 0 ∧ e.1 ∉ d.origin.keys ∧
      t = { s with total := s.total + 1, common := s.common + 1, log := s.log ++ [.missed e.1] }) ∨
    (args.leakRate ≠ 0 ∧ e.1 ∈ d.origin.keys ∧ ∃ p c : Node, p.key = e.1 ∧ c.key = e.1 ∧
      t = { s with
        total := s.total + 1
        common := s.common + 1
        qO := s.qO ++ [p]
        uniq := s.uniq.put c.key (countText c.count)
        qT := s.qT ++ [c]
        leak := s.leak + 1
        log := s.log ++ [.leaked p c] }) := by
  unfold statEntry at turn
  by_cases chosen : leaks args s.total = true
  · have rate : args.leakRate ≠ 0 := by
      simp only [leaks, Bool.and_eq_true, decide_eq_true_eq] at chosen
      exact chosen.1
    simp only [chosen, if_true] at turn
    cases known : d.origin.get e.1 with
    | none =>
      rw [known] at turn
      exact Or.inr (Or.inl ⟨rate, OrderedMap.get_eq_none.mp known, (Option.some.inj turn).symm⟩)
    | some existing =>
      rw [known] at turn
      obtain ⟨p, readO, turn⟩ := Option.bind_eq_some_iff.mp turn
      obtain ⟨c, readT, turn⟩ := Option.bind_eq_some_iff.mp turn
      refine Or.inr (Or.inr ⟨rate, OrderedMap.mem_keys.mpr ⟨existing, known⟩, p, c, ?_, ?_, ?_⟩)
      · show p.key = (e.1, existing).1
        exact nodeOf_key readO
      · exact nodeOf_key readT
      · exact (Option.some.inj turn).symm
  · simp only [chosen] at turn
    exact Or.inl (Option.some.inj turn).symm

theorem Leaked.fresh {d : Databases} {args : Args} {entries : List (Fp × Bytes)} {s : State} {e : Fp × Bytes}
    (leaked : Leaked d args entries s) (fresh : e.1 ∉ entries.map Prod.fst) :
    e.1 ∉ (pushedT s.log).map Node.key ++ unknown s.log ∧
    ∀ k, k = e.1 ∨ k ∈ (pushedT s.log).map Node.key ++ unknown s.log → k ∈ (entries ++ [e]).map Prod.fst := by
  refine ⟨fun member => fresh (leaked.listed _ member), fun k member => ?_⟩
  rw [List.map_append]
  rcases member with rfl | old
  · exact List.mem_append_right _ (List.mem_singleton_self _)
  · exact List.mem_append_left _ (leaked.listed k old)

theorem Leaked.missed {d : Databases} {args : Args} {entries : List (Fp × Bytes)} {s : State} {e : Fp × Bytes}
    (leaked : Leaked d args entries s) (fresh : e.1 ∉ entries.map Prod.fst) (rate : args.leakRate ≠ 0)
    (missing : e.1 ∉ d.origin.keys) :
    Leaked d args (entries ++ [e])
      { s with total := s.total + 1, common := s.common + 1, log := s.log ++ [.missed e.1] } := by
  obtain ⟨new, more⟩ := leaked.fresh fresh
  refine ⟨?_, ?_, leaked.aligned.concat ⟨rfl, rfl⟩, ?_, ?_, ?_, ?_, ?_, by simp [leaked.total], ?_,
    leaked.untouched, ?_, fun zero => absurd zero rate⟩
  · simp [leaked.queueO, Event.plains]
  · simp [leaked.queueT, Event.ciphers]
  · simp only [pushedT_concat, unknown_concat, Event.ciphers, Event.unknown, List.append_nil]
    rw [← List.append_assoc, ← List.concat_eq_append, List.nodup_concat]
    exact ⟨new, leaked.distinct⟩
  · intro k member
    simp only [pushedT_concat, unknown_concat, Event.ciphers, Event.unknown, List.append_nil,
      ← List.append_assoc] at member
    rcases List.mem_append.mp member with old | now
    · exact more k (.inr old)
    · exact more k (.inl (List.mem_singleton.mp now))
  · simpa [Event.ciphers] using leaked.marked
  · simpa [Event.pairs] using leaked.halves
  · intro k member
    rw [unknown_concat] at member
    rcases List.mem_append.mp member with old | now
    · exact leaked.absent k old
    · exact List.mem_singleton.mp now ▸ missing
  · simp [leaked.common, Event.unknown]
    omega
  · intro x member
    rcases List.mem_append.mp member with old | now
    · exact leaked.events x old
    · exact Or.inr ⟨_, List.mem_singleton.mp now⟩

theorem Leaked.paired {d : Databases} {args : Args} {entries : List (Fp × Bytes)} {s : State} {e : Fp × Bytes}
    (leaked : Leaked d args entries s) (fresh : e.1 ∉ entries.map Prod.fst) (rate : args.leakRate ≠ 0)
    (known : e.1 ∈ d.origin.keys) {p c : Node} (keyO : p.key = e.1) (keyT : c.key = e.1) :
    Leaked d args (entries ++ [e])
      { s with
        total := s.total + 1
        common := s.common + 1
        qO := s.qO ++ [p]
        uniq := s.uniq.put c.key (countText c.count)
        qT := s.qT ++ [c]
        leak := s.leak + 1
        log := s.log ++ [.leaked p c] } := by
  obtain ⟨new, more⟩ := leaked.fresh fresh
  refine ⟨?_, ?_, leaked.aligned.concat ⟨rfl, rfl⟩, ?_, ?_, ?_, ?_, ?_, by simp [leaked.total], ?_,
    leaked.untouched, ?_, fun zero => absurd zero rate⟩
  · simp [leaked.queueO, Event.plains]
  · simp [leaked.queueT, Event.ciphers]
  · simp only [pushedT_concat, unknown_concat, Event.ciphers, Event.unknown, List.append_nil,
      List.map_append, List.map_singleton, keyT]
    rw [List.append_assoc]
    have perm : ((pushedT s.log).map Node.key ++ ([e.1] ++ unknown s.log)).Perm
        (e.1 :: ((pushedT s.log).map Node.key ++ unknown s.log)) := List.perm_middle
    rw [perm.nodup_iff, List.nodup_cons]
    exact ⟨new, leaked.distinct⟩
  · intro k member
    simp only [pushedT_concat, unknown_concat, Event.ciphers, Event.unknown, List.append_nil,
      List.map_append, List.map_singleton, keyT, List.mem_append, List.mem_singleton] at member
    rcases member with (old | now) | old
    · exact more k (.inr (List.mem_append_left _ old))
    · exact more k (.inl now)
    · exact more k (.inr (List.mem_append_right _ old))
  · intro k
    rw [OrderedMap.mem_keys_put, leaked.marked k, pushedT_concat, List.map_append, List.mem_append,
      or_comm]
    simp [Event.ciphers]
  · intro x member
    rw [inferred_concat] at member
    rcases List.mem_append.mp member with old | now
    · exact leaked.halves x old
    · rw [List.mem_singleton.mp now]
      exact ⟨keyO.trans keyT.symm, keyO ▸ known⟩
  · simpa [Event.unknown] using leaked.absent
  · simp [leaked.common, Event.unknown]
    omega
  · intro x member
    rcases List.mem_append.mp member with old | now
    · exact leaked.events x old
    · exact Or.inl ⟨_, _, List.mem_singleton.mp now⟩

theorem Leaked.turn {d : Databases} {args : Args} {entries : List (Fp × Bytes)} {s t : State}
    {e : Fp × Bytes} (leaked : Leaked d args entries s) (fresh : e.1 ∉ entries.map Prod.fst)
    (turn : statEntry d args s e = some t) : Leaked d args (entries ++ [e]) t := by
  rcases statEntry_cases turn with rfl | ⟨rate, missing, rfl⟩ | ⟨rate, known, p, c, keyO, keyT, rfl⟩
  · exact ⟨leaked.queueO, leaked.queueT, leaked.aligned, leaked.distinct,
      fun k member => (leaked.fresh fresh).2 k (.inr member), leaked.marked, leaked.halves, leaked.absent,
      by simp [leaked.total], leaked.common, leaked.untouched, leaked.events, leaked.unused⟩
  · exact leaked.missed fresh rate missing
  · exact leaked.paired fresh rate known keyO keyT

theorem statEntries_leaked {d : Databases} {args : Args} {entries : List (Fp × Bytes)} {s : State}
    (distinct : (entries.map Prod.fst).Nodup) (run : statEntries d args entries = some s) :
    Leaked d args entries s := by
  induction entries using List.reverseRecOn generalizing s with
  | nil =>
    obtain rfl := Option.some.inj run
    exact leaked_init d args
  | append_singleton entries e ih =>
    unfold statEntries at run
    rw [List.foldlM_append] at run
    obtain ⟨mid, before, last⟩ := Option.bind_eq_some_iff.mp run
    rw [List.foldlM_cons] at last
    obtain ⟨t, turn, done⟩ := Option.bind_eq_some_iff.mp last
    obtain rfl := Option.some.inj done
    rw [List.map_append, List.map_singleton, ← List.concat_eq_append, List.nodup_concat] at distinct
    exact (ih distinct.2 before).turn distinct.1 turn

theorem statDb_leaked {d : Databases} {args : Args} {s : State} (run : statDb d args = some s) :
    Leaked d args d.target.entries s := statEntries_leaked d.target.keys_nodup run

theorem statDb_isSome {d : Databases} (args : Args)
    (counts : args.leakRate ≠ 0 → ∀ e, e ∈ d.origin.entries ∨ e ∈ d.target.entries → (nodeOf e).isSome) :
    ∃ s, statDb d args = some s := by
  apply Option.isSome_iff_exists.mp
  refine foldlM_isSome (fun e member s => ?_) _
  unfold statEntry
  by_cases chosen : leaks args s.total = true
  · have rate : args.leakRate ≠ 0 := by
      simp only [leaks, Bool.and_eq_true, decide_eq_true_eq] at chosen
      exact chosen.1
    cases known : d.origin.get e.1 with
    | none => simp [chosen]
    | some existing =>
      have listed := (d.origin.get_eq_some e.1 existing).mp known
      obtain ⟨p, readO⟩ := Option.isSome_iff_exists.mp (counts rate _ (Or.inl listed))
      obtain ⟨c, readT⟩ := Option.isSome_iff_exists.mp (counts rate e (Or.inr member))
      simp [chosen, readO, readT]
  · simp [chosen]

theorem Leaked.sound {d : Databases} {args : Args} {entries : List (Fp × Bytes)} {s : State}
    (leaked : Leaked d args entries s) : Sound s := by
  have none_taken : s.involve = 0 := leaked.untouched.2.1
  refine ⟨?_, ?_, ?_, ?_, (List.nodup_append.mp leaked.distinct).1, ?_⟩
  · rw [none_taken, List.drop_zero, leaked.queueO]
  · rw [none_taken, List.drop_zero, leaked.queueT]
  · rw [none_taken]
    exact Nat.zero_le _
  · rw [none_taken]
    exact Nat.zero_le _
  · intro c member
    exact (leaked.marked c.key).mpr (List.mem_map_of_mem member)

theorem Leaked.roomy {d : Databases} {args : Args} {entries : List (Fp × Bytes)} {s : State}
    (leaked : Leaked d args entries s) (limit : Nat) : Roomy limit s.log := by
  intro p c held member
  rcases leaked.events _ member with ⟨p', c', same⟩ | ⟨k, same⟩ <;> cases same

/-! ### Counting -/

/-- The ciphertext chunks that the reported number stands for: the correct inferences and the leaked
chunks without auxiliary information. -/
def counted (s : State) : List Fp := s.ansq.map Node.key ++ unknown s.log

/-- What the counters count, when `ahead` pairs have been examined and not yet taken. -/
structure Counted (d : Databases) (ahead : Nat) (s : State) : Prop where
  known : ∀ p ∈ pushedO s.log, p.key ∈ d.origin.keys
  listed : ∀ c ∈ pushedT s.log, c.key ∈ d.target.keys
  missing : ∀ k ∈ unknown s.log, k ∈ d.target.keys ∧ k ∉ d.origin.keys
  once : (unknown s.log).Nodup
  total : s.total = d.target.entries.length
  common : s.common = s.leak + (unknown s.log).length
  correct : s.correct = s.ansq.length
  reached : s.involve + ahead ≤ (pushedT s.log).length
  /-- Each correct inference belongs to a different pair. -/
  answered : List.Sublist (s.ansq.map Node.key) (((pushedT s.log).take (s.involve + ahead)).map Node.key)
  plains : ∀ p ∈ s.ansq, p ∈ pushedO s.log

theorem Leaked.counted {d : Databases} {args : Args} {s : State}
    (leaked : Leaked d args d.target.entries s) : Counted d 0 s := by
  obtain ⟨wrong, idle, silent⟩ := leaked.untouched
  refine ⟨?_, ?_, ?_, (List.nodup_append.mp leaked.distinct).2.1, leaked.total, leaked.common, ?_, ?_, ?_, ?_⟩
  · intro p member
    rw [leaked.aligned.1] at member
    obtain ⟨x, pair, rfl⟩ := List.mem_map.mp member
    exact (leaked.halves x pair).2
  · intro c member
    exact leaked.listed c.key (List.mem_append_left _ (List.mem_map_of_mem member))
  · intro k member
    exact ⟨leaked.listed k (List.mem_append_right _ member), leaked.absent k member⟩
  · rw [wrong, silent, List.length_nil]
  · rw [idle]
    exact Nat.zero_le _
  · rw [silent]
    exact List.nil_sublist _
  · intro p member
    rw [silent] at member
    cases member

def Closed (d : Databases) (candidate : Node → Node → Prop) : Prop :=
  ∀ p c, candidate p c → p.key ∈ d.origin.keys ∧ c.key ∈ d.target.keys

theorem Counted.moves {d : Databases} {R : Rules} {candidate : Node → Node → Prop} {ahead : Nat} {s t : State}
    (closed : Closed d candidate) (counted : Counted d ahead s) (moves : Moves R candidate s t) :
    Counted d ahead t := by
  obtain ⟨new, -, -, logO, logT, chosen⟩ := moves.grow
  have same := moves.sameCounts
  refine ⟨?_, ?_, ?_, ?_, ?_, ?_, ?_, ?_, ?_, ?_⟩
  · rw [logO]
    intro q member
    rcases List.mem_append.mp member with old | late
    · exact counted.known q old
    · obtain ⟨x, inside, rfl⟩ := List.mem_map.mp late
      exact (closed _ _ (chosen x inside)).1
  · rw [logT]
    intro q member
    rcases List.mem_append.mp member with old | late
    · exact counted.listed q old
    · obtain ⟨x, inside, rfl⟩ := List.mem_map.mp late
      exact (closed _ _ (chosen x inside)).2
  · rw [same.unknown]
    exact counted.missing
  · rw [same.unknown]
    exact counted.once
  · rw [same.total, counted.total]
  · rw [same.common, same.leak, same.unknown, counted.common]
  · rw [same.correct, same.ansq, counted.correct]
  · rw [same.involve, logT, List.length_append]
    exact Nat.le_add_right_of_le counted.reached
  · rw [same.involve, same.ansq, logT, List.take_append_of_le_length counted.reached]
    exact counted.answered
  · rw [same.ansq, logO]
    exact fun q member => List.mem_append_left _ (counted.plains q member)

theorem Counted.examine {d : Databases} {s : State} {p c : Node} (counted : Counted d 0 s) (sound : Sound s)
    (headO : s.qO.head? = some p) (headT : s.qT.head? = some c) : Counted d 1 (s.examine p c) := by
  have pushed : p ∈ pushedO s.log := by
    have front := List.mem_of_mem_head? headO
    rw [sound.queueO] at front
    exact List.mem_of_mem_drop front
  rw [sound.queueT, List.head?_drop] at headT
  have inside : s.involve < (pushedT s.log).length := (List.getElem?_eq_some_iff.mp headT).1
  -- The next ciphertext chunk to be taken is `c`.
  have next : ((pushedT s.log).take (s.involve + 1)).map Node.key =
      ((pushedT s.log).take s.involve).map Node.key ++ [c.key] := by
    rw [List.take_add_one, headT, List.map_append]
    rfl
  have answered := counted.answered
  rw [Nat.add_zero] at answered
  unfold State.examine
  split
  · rename_i equal
    refine ⟨counted.known, counted.listed, counted.missing, counted.once, counted.total, counted.common,
      ?_, inside, ?_, ?_⟩
    · simp [counted.correct]
    · rw [next, List.map_append, List.map_singleton, equal]
      exact answered.append_right [c.key]
    · intro q member
      rcases List.mem_append.mp member with old | now
      · exact counted.plains q old
      · exact List.mem_singleton.mp now ▸ pushed
  · refine ⟨counted.known, counted.listed, counted.missing, counted.once, counted.total, counted.common,
      counted.correct, inside, ?_, counted.plains⟩
    rw [next]
    exact answered.trans (List.sublist_append_left _ _)

theorem Counted.take {d : Databases} {s : State} (counted : Counted d 1 s) : Counted d 0 s.take :=
  ⟨counted.known, counted.listed, counted.missing, counted.once, counted.total, counted.common,
    counted.correct, counted.reached, counted.answered, counted.plains⟩

theorem Counted.iteration {d : Databases} {R : Rules} {candidate : Node → Node → Prop} {s t : State}
    (closed : Closed d candidate) (counted : Counted d 0 s) (sound : Sound s)
    (iteration : Iteration R candidate s t) : Counted d 0 t := by
  obtain ⟨p, c, mid, headO, headT, moves, rfl⟩ := iteration
  exact ((counted.examine sound headO headT).moves closed moves).take

theorem Counted.nodup {d : Databases} {s : State} (counted : Counted d 0 s) (sound : Sound s) :
    (Attack.counted s).Nodup ∧ ∀ k ∈ Attack.counted s, k ∈ d.target.keys := by
  have taken : List.Sublist (((pushedT s.log).take s.involve).map Node.key) ((pushedT s.log).map Node.key) :=
    (List.take_sublist _ _).map _
  have sublist := counted.answered.trans taken
  constructor
  · refine List.nodup_append.mpr ⟨sublist.nodup sound.distinct, counted.once, ?_⟩
    intro k answer k' missed same
    obtain ⟨p, member, rfl⟩ := List.mem_map.mp answer
    exact (counted.missing k' missed).2 (same ▸ counted.known p (counted.plains p member))
  · intro k member
    rcases List.mem_append.mp member with answer | missed
    · obtain ⟨c, pushed, rfl⟩ := List.mem_map.mp (sublist.subset answer)
      exact counted.listed c pushed
    · exact (counted.missing k missed).1

/-- What the printed number says: it counts different ciphertext chunks of `target`, whose number is
`total`. -/
structure Honest (d : Databases) (s : State) : Prop where
  total : s.total = d.target.entries.length
  leak : s.leak ≤ s.common
  counts : s.inferredChunks = (counted s).length
  once : (counted s).Nodup
  listed : ∀ k ∈ counted s, k ∈ d.target.keys
  bound : s.inferredChunks ≤ s.total

theorem Counted.honest {d : Databases} {s : State} (counted : Counted d 0 s) (sound : Sound s) :
    Honest d s := by
  obtain ⟨unique, inside⟩ := counted.nodup sound
  have size : s.inferredChunks = (Attack.counted s).length := by
    rw [State.inferredChunks, Attack.counted, List.length_append, List.length_map, counted.common,
      counted.correct]
    omega
  have few := (List.subperm_of_subset unique inside).length_le
  rw [OrderedMap.keys, List.length_map, ← counted.total, ← size] at few
  exact ⟨counted.total, counted.common ▸ Nat.le_add_right _ _, size, unique, inside, few⟩

end EncryptedDedup.Attack
