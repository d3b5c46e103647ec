import EncryptedDedup.SingleStream.Degenerate
import EncryptedDedup.SingleStream.LocalityRun
import EncryptedDedup.SingleStream.TopCounts

/-!
# Runs on mirrored databases

The ciphertext side has the chunks of the plaintext side under other fingerprints, with the same counts. Where no counts are tied,
`locality_attack` infers right pairs only.
-/

namespace EncryptedDedup.Attack

def Node.rename (E : Fp → Fp) (n : Node) : Node := ⟨E n.key, n.count⟩

/-- Under the chunks `known` the tables list the same neighbours, with different counts. -/
def Mirrors (E : Fp → Fp) (known : List Fp) (storeO storeT : OrderedMap Fp Bytes) : Prop :=
  ∀ x ∈ known, ∃ ns, neighbourList (storeO.get x) = some ns ∧ neighbourList (storeT.get (E x)) = some (ns.map (.rename E)) ∧
    (ns.map Node.count).Nodup ∧ ∀ n ∈ ns, n.key ∈ known

/-- The target databases are the others with every chunk renamed. -/
structure Mirrored (E : Fp → Fp) (d : Databases) : Prop where
  separates : ∀ x ∈ d.origin.keys, ∀ y ∈ d.origin.keys, E x = E y → x = y
  scanned : ∃ ns ms, d.origin.entries.mapM nodeOf = some ns ∧ d.target.entries.mapM nodeOf = some ms ∧
    (ns.map Node.count).Nodup ∧ ms.Perm (ns.map (.rename E))
  left : Mirrors E d.origin.keys d.leftO d.leftT
  right : Mirrors E d.origin.keys d.rightO d.rightT

/-- The neighbours of a chunk that are paired, the most frequent first. -/
def paired (args : Args) (ns : List Node) : List Node := (ranked Node.count ns).take args.thK

variable {P : PriorityQueue Node cmp} {E : Fp → Fp} {d : Databases} {args : Args}

/-! ### Stacks -/

theorem ranked_rename {ns ms : List Node} (distinct : (ns.map Node.count).Nodup) (same : ms.Perm (ns.map (.rename E))) :
    ranked Node.count ms = (ranked Node.count ns).map (.rename E) :=
  @ranked_map _ _ _ _ Node.count Node.count (Node.rename E) (fun _ => rfl) ns ms distinct same

theorem insertNeighbours_ranked (positive : 0 < args.thK) {existing : Option Bytes} {ns : List Node}
    (read : neighbourList existing = some ns) (distinct : (ns.map Node.count).Nodup) :
    ∃ h, insertNeighbours P existing args.thK P.empty = some h ∧ P.drain h = (paired args ns).reverse := by
  have filled := insertNeighbours_list (P := P) (k := args.thK) (h := P.empty) read
  obtain ⟨h, kept⟩ := P.offerAll_isSome worse positive P.empty ns
  rw [kept] at filled
  exact ⟨h, filled, drain_insertNeighbours read distinct filled⟩

/-- Both heaps are emptied in step, so the stacks pair every chunk with its own ciphertext. -/
theorem sortChunks_mirrored (positive : 0 < args.thK) {existingO existingT : Option Bytes} {ns : List Node}
    (readO : neighbourList existingO = some ns) (readT : neighbourList existingT = some (ns.map (.rename E)))
    (distinct : (ns.map Node.count).Nodup) :
    ∃ pq pc, insertNeighbours P existingO args.thK P.empty = some pq ∧ insertNeighbours P existingT args.thK P.empty = some pc ∧
      sortChunks (P.drain pq) (P.drain pc) ([], []) = (paired args ns, (paired args ns).map (.rename E)) := by
  have counts : (ns.map (Node.rename E)).map Node.count = ns.map Node.count := by
    rw [List.map_map]
    rfl
  obtain ⟨pq, filledO, drainedO⟩ := insertNeighbours_ranked (P := P) positive readO distinct
  obtain ⟨pc, filledT, drainedT⟩ := insertNeighbours_ranked (P := P) positive readT (by rw [counts]; exact distinct)
  have images : paired args (ns.map (.rename E)) = (paired args ns).map (.rename E) := by
    unfold paired
    rw [ranked_rename distinct (.refl _), List.map_take]
  refine ⟨pq, pc, filledO, filledT, ?_⟩
  rw [drainedO, drainedT, images, sortChunks_eq, List.length_reverse, List.length_reverse, List.length_map,
    List.take_of_length_le (by simp), List.take_of_length_le (by simp), List.reverse_reverse, List.reverse_reverse, List.append_nil,
    List.append_nil]

theorem leftStacks_mirrored (mirrored : Mirrored E d) (positive : 0 < args.thK) {p : Node} (known : p.key ∈ d.origin.keys) :
    ∃ ns, neighbourList (d.leftO.get p.key) = some ns ∧ (∀ n ∈ ns, n.key ∈ d.origin.keys) ∧
      leftStacks P d args p (p.rename E) = some (paired args ns, (paired args ns).map (.rename E)) := by
  obtain ⟨ns, readO, readT, distinct, inside⟩ := mirrored.left p.key known
  obtain ⟨pq, pc, filledO, filledT, sorted⟩ := sortChunks_mirrored (P := P) positive readO readT distinct
  refine ⟨ns, readO, inside, ?_⟩
  simp only [leftStacks, leftInsert, Databases.left, Node.rename, filledO, filledT, sorted, Option.bind_eq_bind, Option.bind_some]

theorem rightStacks_mirrored (mirrored : Mirrored E d) (positive : 0 < args.thK) {p : Node} (known : p.key ∈ d.origin.keys) :
    ∃ ns, neighbourList (d.rightO.get p.key) = some ns ∧ (∀ n ∈ ns, n.key ∈ d.origin.keys) ∧
      rightStacks P d args p (p.rename E) = some (paired args ns, (paired args ns).map (.rename E)) := by
  obtain ⟨ns, readO, readT, distinct, inside⟩ := mirrored.right p.key known
  obtain ⟨pq, pc, filledO, filledT, sorted⟩ := sortChunks_mirrored (P := P) positive readO readT distinct
  refine ⟨ns, readO, inside, ?_⟩
  simp only [rightStacks, rightInsert, Databases.right, Node.rename, filledO, filledT, sorted, Option.bind_eq_bind, Option.bind_some]

theorem topChunks_mirrored (mirrored : Mirrored E d) (init : 0 < args.init) :
    ∃ top, topChunks P d.origin args = some top ∧ topChunks P d.target args = some (top.map (.rename E)) := by
  obtain ⟨ns, ms, readO, readT, distinct, same⟩ := mirrored.scanned
  have counts : (ms.map Node.count).Nodup := by
    rw [(same.map Node.count).nodup_iff, List.map_map]
    exact distinct
  obtain ⟨hO, keptO⟩ := P.offerAll_isSome worse init P.empty ns
  obtain ⟨hT, keptT⟩ := P.offerAll_isSome worse init P.empty ms
  have drainedO := P.drain_offerAll (fun _ _ => rfl) (fun _ _ => rfl) distinct keptO
  have drainedT := P.drain_offerAll (fun _ _ => rfl) (fun _ _ => rfl) counts keptT
  rw [ranked_rename distinct same, ← List.map_take] at drainedT
  refine ⟨(ranked Node.count ns).take args.init, ?_, ?_⟩
  · simp only [topChunks, dbInsert, readO, keptO, Option.bind_eq_bind, Option.bind_some, drainedO]
  · simp only [topChunks, dbInsert, readT, keptT, Option.bind_eq_bind, Option.bind_some, drainedT]

/-! ### Right pairs -/

/-- Every enqueued pair is a chunk with its own ciphertext. -/
structure RightPairs (E : Fp → Fp) (d : Databases) (s : State) : Prop where
  sound : Sound s
  aligned : Aligned s.log
  pairs : ∀ x ∈ inferred s.log, x.1.key ∈ d.origin.keys ∧ x.2 = x.1.rename E
  marks : ∀ k ∈ s.uniq.keys, k ∈ (pushedT s.log).map Node.key

theorem RightPairs.lockstep {s : State} (right : RightPairs E d s) : Lockstep s := right.sound.lockstep right.aligned

theorem RightPairs.queues {s : State} (right : RightPairs E d s) :
    s.qT = s.qO.map (.rename E) ∧ ∀ p ∈ s.qO, p.key ∈ d.origin.keys := by
  have qO : s.qO = ((inferred s.log).drop s.involve).map Prod.fst := by
    rw [right.sound.queueO, right.aligned.1, List.map_drop]
  have qT : s.qT = ((inferred s.log).drop s.involve).map Prod.snd := by
    rw [right.sound.queueT, right.aligned.2, List.map_drop]
  constructor
  · rw [qO, qT, List.map_map]
    exact List.map_congr_left fun x member => (right.pairs x (List.mem_of_mem_drop member)).2
  · intro p member
    rw [qO] at member
    obtain ⟨x, inside, rfl⟩ := List.mem_map.mp member
    exact (right.pairs x (List.mem_of_mem_drop inside)).1

/-- A ciphertext without a mark has not been enqueued, so the queue has room for it. -/
theorem RightPairs.room {s : State} (right : RightPairs E d s) {n : Node} (known : n.key ∈ d.origin.keys)
    (fresh : E n.key ∉ s.uniq.keys) : s.qO.length + 1 ≤ d.origin.entries.length := by
  have distinct : (E n.key :: (pushedT s.log).map Node.key).Nodup := by
    refine List.nodup_cons.mpr ⟨fun pushed => ?_, right.sound.distinct⟩
    obtain ⟨c, member, same⟩ := List.mem_map.mp pushed
    exact fresh (same ▸ right.sound.marked c member)
  have images : E n.key :: (pushedT s.log).map Node.key ⊆ d.origin.keys.map E := by
    refine List.cons_subset.mpr ⟨List.mem_map_of_mem known, fun k pushed => ?_⟩
    rw [right.aligned.2, List.map_map] at pushed
    obtain ⟨x, member, rfl⟩ := List.mem_map.mp pushed
    obtain ⟨inside, same⟩ := right.pairs x member
    rw [Function.comp_apply, same]
    exact List.mem_map_of_mem inside
  have few := (List.subperm_of_subset distinct images).length_le
  have queue : s.qO.length ≤ (pushedT s.log).length := by
    rw [right.lockstep.1, right.sound.queueT, List.length_drop]
    exact Nat.sub_le _ _
  have keys : d.origin.keys.length = d.origin.entries.length := List.length_map _
  rw [List.length_cons, List.length_map, List.length_map, keys] at few
  omega

theorem RightPairs.push {s : State} (right : RightPairs E d s) {n : Node} (known : n.key ∈ d.origin.keys)
    (fresh : E n.key ∉ s.uniq.keys) (room : s.qO.length < args.queueLimit) :
    RightPairs E d (s.push n (n.rename E) (s.uniq.put (E n.key) (countText n.count))) := by
  have logT : pushedT (s.push n (n.rename E) (s.uniq.put (E n.key) (countText n.count))).log =
      pushedT s.log ++ [n.rename E] := pushedT_concat _ _
  have pairs : inferred (s.push n (n.rename E) (s.uniq.put (E n.key) (countText n.count))).log =
      inferred s.log ++ [(n, n.rename E)] := inferred_concat _ _
  have move : Move (LocalityAttack.rules args) (fun _ _ => True) s
      (s.push n (n.rename E) (s.uniq.put (E n.key) (countText n.count))) := by
    refine .push trivial fresh room fun k => ?_
    rw [OrderedMap.mem_keys_put, or_comm]
    exact or_congr_right List.mem_singleton.symm
  refine ⟨right.sound.move move, right.aligned.concat ⟨rfl, rfl⟩, fun x member => ?_, fun k marked => ?_⟩
  · rw [pairs] at member
    rcases List.mem_append.mp member with old | new
    · exact right.pairs x old
    · rw [List.mem_singleton.mp new]
      exact ⟨known, rfl⟩
  · rw [logT, List.map_append]
    rcases OrderedMap.mem_keys_put.mp marked with rfl | old
    · exact List.mem_append_right _ (List.mem_singleton_self _)
    · exact List.mem_append_left _ (right.marks k old)

end EncryptedDedup.Attack

namespace EncryptedDedup.LocalityAttack

open Attack

variable {P : PriorityQueue Node cmp} {E : Fp → Fp} {d : Databases} {args : Args}

/-- What the pairing loop leaves behind; if the queues are large enough, every ciphertext it has seen is marked. -/
structure PairedUp (E : Fp → Fp) (d : Databases) (args : Args) (ns : List Node) (s t : State) : Prop where
  right : RightPairs E d t
  involve : t.involve = s.involve
  grown : ∃ new, inferred t.log = inferred s.log ++ new
  kept : ∀ k ∈ s.uniq.keys, k ∈ t.uniq.keys
  seen : d.origin.entries.length ≤ args.queueLimit → ∀ n ∈ ns, E n.key ∈ t.uniq.keys

variable (args) in
theorem pairUp_mirrored {ns : List Node} (known : ∀ n ∈ ns, n.key ∈ d.origin.keys) {s : State} (right : RightPairs E d s) :
    PairedUp E d args ns s (pairUp args.queueLimit ns (ns.map (.rename E)) s) := by
  induction ns generalizing s with
  | nil => exact ⟨right, rfl, ⟨[], (List.append_nil _).symm⟩, fun _ marked => marked, fun _ _ member => absurd member List.not_mem_nil⟩
  | cons n ns ih =>
    have later : ∀ n ∈ ns, n.key ∈ d.origin.keys := fun n member => known n (List.mem_cons_of_mem _ member)
    have known' := known n List.mem_cons_self
    rw [List.map_cons, pairUp]
    by_cases marked : s.uniq.contains (n.rename E).key = true
    · rw [if_pos marked]
      have rest := ih later right
      refine ⟨rest.right, rest.involve, rest.grown, rest.kept, fun large m member => ?_⟩
      rcases List.mem_cons.mp member with rfl | member
      · exact rest.kept _ (OrderedMap.contains_iff.mp marked)
      · exact rest.seen large m member
    · rw [if_neg marked]
      have fresh : E n.key ∉ s.uniq.keys := fun member => marked (OrderedMap.contains_iff.mpr member)
      by_cases full : s.qO.length + 1 > args.queueLimit
      · rw [if_pos full]
        refine ⟨right, rfl, ⟨[], (List.append_nil _).symm⟩, fun _ marked => marked, fun large => ?_⟩
        have room := right.room known' fresh
        omega
      · rw [if_neg full]
        have pushed := right.push known' fresh (show s.qO.length < args.queueLimit by omega)
        have rest := ih later pushed
        have added := inferred_concat s.log (.paired n (n.rename E) s.qO.length)
        refine ⟨rest.right, rest.involve, ?_, fun k old => ?_, fun large m member => ?_⟩
        · obtain ⟨new, grown⟩ := rest.grown
          refine ⟨(n, n.rename E) :: new, ?_⟩
          rw [List.append_cons]
          exact grown.trans (congrArg (· ++ new) added)
        · exact rest.kept k (OrderedMap.mem_keys_put.mpr (.inr old))
        · rcases List.mem_cons.mp member with rfl | member
          · exact rest.kept _ (OrderedMap.mem_keys_put.mpr (.inl rfl))
          · exact rest.seen large m member

/-! ### Iterations -/

theorem examine_uniq (s : State) (p c : Node) : (s.examine p c).uniq = s.uniq := by
  unfold State.examine
  split <;> rfl

theorem RightPairs.examine {s : State} (right : RightPairs E d s) (p c : Node) : RightPairs E d (s.examine p c) := by
  have log := examine_log s p c
  have uniq := examine_uniq s p c
  refine ⟨right.sound.examine p c, ?_, ?_, ?_⟩
  · rw [log]
    exact right.aligned
  · rw [log]
    exact right.pairs
  · rw [log, uniq]
    exact right.marks

theorem examine_involve (s : State) (p c : Node) : (s.examine p c).involve = s.involve := by
  unfold State.examine
  split <;> rfl

/-- The neighbours of the chunks that have been taken are marked. -/
def Expanded (E : Fp → Fp) (d : Databases) (s : State) : Prop :=
  ∀ x ∈ (inferred s.log).take s.involve, ∀ ns,
    neighbourList (d.leftO.get x.1.key) = some ns ∨ neighbourList (d.rightO.get x.1.key) = some ns → ∀ n ∈ ns, E n.key ∈ s.uniq.keys

/-- No list of neighbours is cut off, and the queues have room for all chunks. -/
structure Ample (d : Databases) (args : Args) : Prop where
  limit : d.origin.entries.length ≤ args.queueLimit
  thK : ∀ x ns, neighbourList (d.leftO.get x) = some ns ∨ neighbourList (d.rightO.get x) = some ns → ns.length ≤ args.thK

theorem mem_paired {ns : List Node} (short : ns.length ≤ args.thK) {n : Node} : n ∈ paired args ns ↔ n ∈ ns := by
  unfold paired
  rw [List.take_of_length_le (by rw [length_ranked]; exact short)]
  exact (ranked_perm ns).mem_iff

theorem iterate_mirrored (mirrored : Mirrored E d) (positive : 0 < args.thK) {s t : State} (right : RightPairs E d s)
    (moved : iterate P d args s = some t) :
    RightPairs E d t ∧ (∃ new, inferred t.log = inferred s.log ++ new) ∧
      (Ample d args → Expanded E d s → Expanded E d t) := by
  have sound := right.sound.iteration (iterate_iteration moved)
  unfold iterate at moved
  obtain ⟨p, headO, moved⟩ := Option.bind_eq_some_iff.mp moved
  obtain ⟨c, headT, moved⟩ := Option.bind_eq_some_iff.mp moved
  obtain ⟨restO, qO⟩ : ∃ rest, s.qO = p :: rest := by
    cases whole : s.qO with
    | nil =>
      rw [whole] at headO
      cases headO
    | cons q rest =>
      rw [whole] at headO
      exact ⟨rest, congrArg (· :: rest) (Option.some.inj headO)⟩
  obtain ⟨images, inside⟩ := right.queues
  have known : p.key ∈ d.origin.keys := inside p (by rw [qO]; exact List.mem_cons_self)
  obtain rfl : c = p.rename E := by
    rw [images, qO] at headT
    exact (Option.some.inj headT).symm
  obtain ⟨left, readL, knownL, stackL⟩ := leftStacks_mirrored (P := P) mirrored positive known
  obtain ⟨right_, readR, knownR, stackR⟩ := rightStacks_mirrored (P := P) mirrored positive known
  have few {ns : List Node} (known : ∀ n ∈ ns, n.key ∈ d.origin.keys) : ∀ n ∈ paired args ns, n.key ∈ d.origin.keys :=
    fun n member => known n ((ranked_perm ns).mem_iff.mp (List.mem_of_mem_take member))
  rw [stackL] at moved
  dsimp only [Option.bind_eq_bind, Option.bind_some] at moved
  rw [stackR] at moved
  obtain rfl := Option.some.inj moved
  have first := pairUp_mirrored args (few knownL) (RightPairs.examine right p (p.rename E))
  have second := pairUp_mirrored args (few knownR) first.right
  have idle : s.involve < (inferred s.log).length := by
    have head := right.lockstep.2
    rw [images, qO] at head
    by_contra past
    rw [List.drop_of_length_le (by omega)] at head
    cases head
  -- The pair at the heads of the queues is the next one that was inferred.
  have next : (inferred s.log)[s.involve] = (p, p.rename E) := by
    have head := right.lockstep.2
    rw [images, qO, List.drop_eq_getElem_cons idle] at head
    exact (List.cons.inj head).1.symm
  obtain ⟨new, grown⟩ := first.grown
  obtain ⟨new', grown'⟩ := second.grown
  have involve := second.involve.trans (first.involve.trans (examine_involve s p (p.rename E)))
  refine ⟨⟨sound, second.right.aligned, second.right.pairs, second.right.marks⟩, ⟨new ++ new', ?_⟩, fun ample expanded => ?_⟩
  · rw [← List.append_assoc, ← examine_log s p (p.rename E), ← grown]
    exact grown'
  intro x member ns read n listed
  have taken : x ∈ (inferred s.log).take (s.involve + 1) := by
    rw [show (inferred s.log).take (s.involve + 1) = ((inferred s.log) ++ (new ++ new')).take (s.involve + 1) from
      (List.take_append_of_le_length idle).symm, ← List.append_assoc, ← examine_log s p (p.rename E), ← grown, ← grown', ← involve]
    exact member
  rw [List.take_succ_eq_append_getElem idle, next, List.mem_append] at taken
  rcases taken with old | last
  · refine second.kept _ (first.kept _ ?_)
    have uniq : (s.examine p (p.rename E)).uniq = s.uniq := examine_uniq s p _
    rw [uniq]
    exact expanded x old ns read n listed
  · obtain rfl := List.mem_singleton.mp last
    have short := ample.thK p.key ns read
    rcases read with read | read
    · obtain rfl := Option.some.inj (readL.symm.trans read)
      exact second.kept _ (first.seen ample.limit n ((mem_paired short).mpr listed))
    · obtain rfl := Option.some.inj (readR.symm.trans read)
      exact second.seen ample.limit n ((mem_paired short).mpr listed)

/-! ### Runs -/

theorem start_mirrored (mirrored : Mirrored E d) (unleaked : args.leakRate = 0) (init : 0 < args.init) :
    ∃ s₀, start P d args = some s₀ ∧ RightPairs E d s₀ ∧ Expanded E d s₀ ∧
      (d.origin.entries ≠ [] → inferred s₀.log ≠ []) := by
  obtain ⟨top, topO, topT⟩ := topChunks_mirrored (P := P) mirrored init
  obtain ⟨s₁, stat⟩ := statDb_isSome (d := d) args fun rate => absurd unleaked rate
  obtain ⟨s₀, started⟩ : ∃ s₀, start P d args = some s₀ := by
    apply Option.isSome_iff_exists.mp
    unfold start scan
    rw [stat, Option.bind_some, if_pos unleaked, topO, topT]
    rfl
  refine ⟨s₀, started, ?_⟩
  have sound := (start_sound started).1
  obtain ⟨s₂, leaked, ⟨rate, -⟩ | ⟨-, o, t, topO', topT', empty, rfl⟩⟩ := start_cases started
  · exact absurd unleaked rate
  · obtain rfl := Option.some.inj (topO.symm.trans topO')
    obtain rfl := Option.some.inj (topT.symm.trans topT')
    obtain ⟨size, -, known⟩ := topChunks_spec topO
    have zipped : top.zip (top.map (.rename E)) = top.map fun n => (n, n.rename E) := by
      simpa using @List.zip_map' _ _ _ id (Node.rename E) top
    have pairs : inferred [.ranked top (top.map (.rename E))] = top.map fun n => (n, n.rename E) := by
      simp [inferred, Event.pairs, zipped]
    have pushed : pushedT [.ranked top (top.map (.rename E))] = top.map (.rename E) := by simp [pushedT, Event.ciphers]
    refine ⟨⟨sound, aligned_ranked (List.length_map _).symm, fun x member => ?_, fun k marked => ?_⟩, fun x member => ?_,
      fun filled none_ => ?_⟩
    · dsimp only at member
      rw [pairs] at member
      obtain ⟨n, inside, rfl⟩ := List.mem_map.mp member
      exact ⟨known n inside, rfl⟩
    · dsimp only at marked ⊢
      rw [pushed]
      rcases (keys_markAll _ _ k).mp marked with old | new
      · rw [leaked.marked, empty] at old
        cases old
      · exact new
    · dsimp only at member
      rw [leaked.untouched.2.1, List.take_zero] at member
      cases member
    · dsimp only at none_
      rw [pairs] at none_
      have zero := congrArg List.length none_
      rw [List.length_map, size, List.length_nil] at zero
      have some_ := List.length_pos_of_ne_nil filled
      omega

theorem head_mirrored (mirrored : Mirrored E d) (positive : 0 < args.thK) {s₀ s : State} (right : RightPairs E d s₀)
    (expanded : Expanded E d s₀) {n : Nat} (tested : (mainLoop P d args).Tests s₀ n s) :
    RightPairs E d s ∧ (∃ new, inferred s.log = inferred s₀.log ++ new) ∧ (Ample d args → Expanded E d s) := by
  refine Loop.invariant _ (I := fun s => RightPairs E d s ∧ (∃ new, inferred s.log = inferred s₀.log ++ new) ∧
    (Ample d args → Expanded E d s)) ⟨right, ⟨[], (List.append_nil _).symm⟩, fun _ => expanded⟩ ?_ tested
  rintro t u ⟨right, ⟨new, grown⟩, expanded⟩ - moved
  obtain ⟨right', ⟨new', grown'⟩, expanded'⟩ := iterate_mirrored mirrored positive right moved
  refine ⟨right', ⟨new ++ new', ?_⟩, fun ample => expanded' ample (expanded ample)⟩
  rw [grown', grown, List.append_assoc]

/-- At the end no pair is left in the queues, so the neighbours of every inferred chunk are inferred. -/
theorem closed_of_stopped (mirrored : Mirrored E d) {s : State} (right : RightPairs E d s) (expanded : Expanded E d s)
    (stopped : (mainLoop P d args).guard s = false) {x : Node × Node} (member : x ∈ inferred s.log) {ns : List Node}
    (read : neighbourList (d.leftO.get x.1.key) = some ns ∨ neighbourList (d.rightO.get x.1.key) = some ns)
    (known : ∀ n ∈ ns, n.key ∈ d.origin.keys) : ∀ n ∈ ns, ∃ y ∈ inferred s.log, y.1.key = n.key := by
  have empty : s.qO = [] := by
    by_contra filled
    have filled' : s.qT ≠ [] := by
      rw [right.queues.1]
      exact fun none_ => filled (List.map_eq_nil_iff.mp none_)
    rw [guard_iff.mpr ⟨filled, filled'⟩] at stopped
    cases stopped
  have all : (inferred s.log).length ≤ s.involve := by
    have rest := right.lockstep.2
    rw [empty, List.zip_nil_left] at rest
    exact List.drop_eq_nil_iff.mp rest.symm
  intro n listed
  rw [← List.take_of_length_le all] at member
  have marked := right.marks _ (expanded x member ns read n listed)
  rw [right.aligned.2, List.map_map] at marked
  obtain ⟨y, inside, same⟩ := List.mem_map.mp marked
  obtain ⟨known', cipher⟩ := right.pairs y inside
  rw [Function.comp_apply, cipher] at same
  exact ⟨y, inside, mirrored.separates _ known' _ (known n listed) same⟩

end EncryptedDedup.LocalityAttack
