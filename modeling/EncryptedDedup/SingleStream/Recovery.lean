import EncryptedDedup.SingleStream.LinkedTables
import EncryptedDedup.SingleStream.EncryptedCounts
import EncryptedDedup.SingleStream.MirroredRun

/-!
# Recovering an encrypted trace

A trace is encrypted by `k_minhash`, counted with and without encryption by `locality_count`, and attacked by `locality_attack`.
-/

namespace EncryptedDedup.LocalityAttack

open Attack LocalityCount

variable {P : PriorityQueue Node cmp} {E : Fp → Fp} {trace : List Fp} {args : Args}

/-- No two chunks of the trace occur equally often, nor do two neighbours of a chunk on one side of it. -/
structure Untied (trace : List Fp) : Prop where
  chunks : ∀ x ∈ trace, ∀ y ∈ trace, trace.count x = trace.count y → x = y
  left : ∀ p ∈ adjacent trace, ∀ q ∈ adjacent trace, p.2 = q.2 → (adjacent trace).count p = (adjacent trace).count q → p = q
  right : ∀ p ∈ adjacent trace, ∀ q ∈ adjacent trace, p.1 = q.1 → (adjacent trace).count p = (adjacent trace).count q → p = q

/-! ### Tables as lists of neighbours -/

def nodes (ys : List Fp) : List Node := (tally ys).map fun e => ⟨e.1, e.2⟩

theorem nodes_map {ys : List Fp} (separates : Separates E ys) : nodes (ys.map E) = (nodes ys).map (.rename E) := by
  unfold nodes
  rw [tally_map separates, List.map_map, List.map_map]
  rfl

theorem mem_nodes {ys : List Fp} {n : Node} : n ∈ nodes ys ↔ n.count = ys.count n.key ∧ 0 < n.count := by
  unfold nodes
  rw [List.mem_map]
  constructor
  · rintro ⟨e, member, rfl⟩
    exact mem_tally.mp member
  · exact fun counted => ⟨(n.key, n.count), mem_tally.mpr counted, rfl⟩

theorem neighbourList_packed {ys : List Fp} (safe : ∀ y ∈ ys, StringSafe y) (small : ys.length < 2 ^ 64) :
    neighbourList (packed (tally (ys.map assigned))) = some (nodes ys) := by
  rw [tally_assigned safe]
  have counts : ∀ n ∈ nodes ys, n.count < 2 ^ 64 := by
    intro n member
    rw [(mem_nodes.mp member).1]
    exact lt_of_le_of_lt List.count_le_length small
  by_cases vacant : tally ys = []
  · have none_ : nodes ys = [] := by
      unfold nodes
      rw [vacant]
      rfl
    rw [vacant, none_]
    rfl
  · have value : pack ((tally ys).map (Prod.map Fp.bytes id)) = valueOf (nodes ys) := by
      unfold pack valueOf nodes
      rw [List.flatMap_map, List.map_map, ← List.flatMap_def]
      rfl
    have whole : Attack.records (valueOf (nodes ys)) = some (entriesOf (valueOf (nodes ys))) := records_whole ⟨_, length_valueOf _⟩
    rw [entriesOf_valueOf counts] at whole
    rw [packed_ne_nil (by simpa using vacant), value]
    exact whole

theorem distinct_nodes {ys : List Fp} (untied : ∀ y ∈ ys, ∀ z ∈ ys, ys.count y = ys.count z → y = z) :
    ((nodes ys).map Node.count).Nodup := by
  have keys : ((nodes ys).map Node.key).Nodup := by
    unfold nodes
    rw [List.map_map]
    exact keys_tally_nodup ys
  refine (List.Nodup.of_map _ keys).map_on fun a here b there same => ?_
  have known {n : Node} (member : n ∈ nodes ys) : n.key ∈ ys := by
    obtain ⟨counted, positive⟩ := mem_nodes.mp member
    exact List.count_pos_iff.mp (counted ▸ positive)
  have key := untied a.key (known here) b.key (known there) (by rw [← (mem_nodes.mp here).1, ← (mem_nodes.mp there).1, same])
  cases a
  cases b
  dsimp only at key same
  rw [key, same]

theorem known_iff {seen : List Fp} {pairs : List (Fp × Fp)} {s : LocalityCount.Databases} (represents : Represents seen pairs s)
    {x : Fp} : x ∈ s.db.keys ↔ x ∈ seen := by
  rw [OrderedMap.mem_keys, represents.frequency, ← List.count_pos_iff]
  split
  · rename_i zero
    simp [zero]
  · rename_i some_
    simp only [Option.some.injEq, exists_eq', true_iff]
    omega

theorem scan_counts {seen : List Fp} {pairs : List (Fp × Fp)} {s : LocalityCount.Databases} (represents : Represents seen pairs s)
    (small : seen.length < 2 ^ 64) : ∃ ms, s.db.entries.mapM nodeOf = some ms ∧ ms.Perm (nodes seen) := by
  have stored : ∀ e ∈ s.db.entries, seen.count e.1 ≠ 0 ∧ e.2 = u64 (seen.count e.1) := by
    intro e member
    have found := (s.db.get_eq_some e.1 e.2).mpr member
    rw [represents.frequency] at found
    split at found
    · cases found
    · rename_i some_
      exact ⟨some_, (Option.some.inj found).symm⟩
  have read : ∀ es : List (Fp × Bytes), (∀ e ∈ es, seen.count e.1 ≠ 0 ∧ e.2 = u64 (seen.count e.1)) →
      es.mapM nodeOf = some (es.map fun e => ⟨e.1, seen.count e.1⟩) := by
    intro es
    induction es with
    | nil => exact fun _ => rfl
    | cons e es ih =>
      intro stored
      have first : nodeOf e = some ⟨e.1, seen.count e.1⟩ := by
        have inside : 0 + 8 ≤ (u64 (seen.count e.1)).length := by rw [length_u64]
        have word : (u64 (seen.count e.1)).take 8 = u64 (seen.count e.1) := List.take_of_length_le (by rw [length_u64])
        have count := lt_of_le_of_lt (List.count_le_length (a := e.1)) small
        rw [nodeOf, (stored e List.mem_cons_self).2, load64_inside inside, List.drop_zero, word, ofLE_u64, Nat.mod_eq_of_lt count]
        rfl
      rw [List.mapM_cons, first, ih fun e member => stored e (List.mem_cons_of_mem _ member)]
      rfl
  refine ⟨_, read _ stored, ?_⟩
  have keys : ((s.db.entries.map fun e => (⟨e.1, seen.count e.1⟩ : Node)).map Node.key).Nodup := by
    rw [List.map_map]
    exact s.db.keys_nodup
  have keys' : ((nodes seen).map Node.key).Nodup := by
    unfold nodes
    rw [List.map_map]
    exact keys_tally_nodup seen
  refine (List.perm_ext_iff_of_nodup (List.Nodup.of_map _ keys) (List.Nodup.of_map _ keys')).mpr fun n => ?_
  rw [mem_nodes, List.mem_map]
  constructor
  · rintro ⟨e, member, rfl⟩
    exact ⟨rfl, Nat.pos_of_ne_zero (stored e member).1⟩
  · rintro ⟨counted, positive⟩
    rw [counted] at positive
    obtain ⟨v, found⟩ := OrderedMap.mem_keys.mp ((known_iff represents).mpr (List.count_pos_iff.mp positive))
    refine ⟨(n.key, v), (s.db.get_eq_some _ _).mp found, ?_⟩
    dsimp only
    rw [← counted]

/-! ### The attacked databases -/

theorem length_neighbours (x : Fp) :
    (predecessors (adjacent trace) x).length ≤ trace.length ∧ (successors (adjacent trace) x).length ≤ trace.length := by
  have count : trace.count x ≤ trace.length := List.count_le_length
  have left := length_predecessors trace x
  have right := length_successors trace x
  omega

section

variable {m c : LocalityCount.Databases} (encryptable : Encryptable E trace) (represents : Represents trace (adjacent trace) m)
  (represents' : Represents (trace.map E) (adjacent (trace.map E)) c) (small : trace.length < 2 ^ 64)

include encryptable represents small

theorem leftList (x : Fp) : neighbourList (m.storeLeft.get x) = some (nodes (predecessors (adjacent trace) x)) := by
  rw [represents.left]
  refine neighbourList_packed (fun y near => (encryptable.safe y ?_).1) (lt_of_le_of_lt (length_neighbours x).1 small)
  exact (mem_adjacent (mem_predecessors.mp near)).1

theorem rightList (x : Fp) : neighbourList (m.storeRight.get x) = some (nodes (successors (adjacent trace) x)) := by
  rw [represents.right]
  refine neighbourList_packed (fun y near => (encryptable.safe y ?_).1) (lt_of_le_of_lt (length_neighbours x).2 small)
  exact (mem_adjacent (mem_successors.mp near)).2

omit represents

include represents'

theorem cipherLeft {x : Fp} (member : x ∈ trace) :
    neighbourList (c.storeLeft.get (E x)) = some ((nodes (predecessors (adjacent trace) x)).map (.rename E)) := by
  have inside : ∀ y ∈ predecessors (adjacent trace) x, y ∈ trace := fun y near => (mem_adjacent (mem_predecessors.mp near)).1
  rw [represents'.left, leftTable, adjacent_map,
    predecessors_map fun p near => encryptable.separates p.2 (mem_adjacent near).2 x member, neighbourList_packed,
    nodes_map fun a near b near' => encryptable.separates a (inside a near) b (inside b near')]
  · intro y near
    obtain ⟨z, near', rfl⟩ := List.mem_map.mp near
    exact (encryptable.safe z (inside z near')).2
  · rw [List.length_map]
    exact lt_of_le_of_lt (length_neighbours x).1 small

theorem cipherRight {x : Fp} (member : x ∈ trace) :
    neighbourList (c.storeRight.get (E x)) = some ((nodes (successors (adjacent trace) x)).map (.rename E)) := by
  have inside : ∀ y ∈ successors (adjacent trace) x, y ∈ trace := fun y near => (mem_adjacent (mem_successors.mp near)).2
  rw [represents'.right, rightTable, adjacent_map,
    successors_map fun p near => encryptable.separates p.1 (mem_adjacent near).1 x member, neighbourList_packed,
    nodes_map fun a near b near' => encryptable.separates a (inside a near) b (inside b near')]
  · intro y near
    obtain ⟨z, near', rfl⟩ := List.mem_map.mp near
    exact (encryptable.safe z (inside z near')).2
  · rw [List.length_map]
    exact lt_of_le_of_lt (length_neighbours x).2 small

include represents

theorem mirrored_counts (untied : Untied trace) : Mirrored E (.ofCounts m c) := by
  have known {x : Fp} : x ∈ m.db.keys ↔ x ∈ trace := known_iff represents
  have member {ys : List Fp} {n : Node} (listed : n ∈ nodes ys) : n.key ∈ ys := by
    obtain ⟨counted, positive⟩ := mem_nodes.mp listed
    exact List.count_pos_iff.mp (counted ▸ positive)
  refine ⟨fun x here y there => encryptable.separates x (known.mp here) y (known.mp there), ?_, fun x here => ?_, fun x here => ?_⟩
  · obtain ⟨ns, readO, sameO⟩ := scan_counts represents small
    obtain ⟨ms, readT, sameT⟩ := scan_counts represents' (by rw [List.length_map]; exact small)
    refine ⟨ns, ms, readO, readT, ?_, ?_⟩
    · rw [(sameO.map Node.count).nodup_iff]
      exact distinct_nodes untied.chunks
    · rw [nodes_map encryptable.separates] at sameT
      exact sameT.trans (sameO.map _).symm
  · refine ⟨_, leftList encryptable represents small x, cipherLeft encryptable represents' small (known.mp here), ?_,
      fun n listed => ?_⟩
    · refine distinct_nodes fun y near z near' same => ?_
      rw [count_predecessors, count_predecessors] at same
      exact (Prod.mk.inj (untied.left (y, x) (mem_predecessors.mp near) (z, x) (mem_predecessors.mp near') rfl same)).1
    · exact known.mpr (mem_adjacent (mem_predecessors.mp (member listed))).1
  · refine ⟨_, rightList encryptable represents small x, cipherRight encryptable represents' small (known.mp here), ?_,
      fun n listed => ?_⟩
    · refine distinct_nodes fun y near z near' same => ?_
      rw [count_successors, count_successors] at same
      exact (Prod.mk.inj (untied.right (x, y) (mem_successors.mp near) (x, z) (mem_successors.mp near') rfl same)).2
    · exact known.mpr (mem_adjacent (mem_successors.mp (member listed))).2

end

theorem readable_counts {seen : List Fp} {pairs : List (Fp × Fp)} {s : LocalityCount.Databases}
    (represents : Represents seen pairs s) :
    Readable s.storeLeft ∧ Readable s.storeRight := by
  have readable {store : OrderedMap Fp Bytes} {ys : Fp → List Fp}
      (stored : ∀ x, store.get x = packed (tally ((ys x).map assigned))) : Readable store := by
    intro e member
    have found := (store.get_eq_some e.1 e.2).mpr member
    rw [stored] at found
    have value : e.2 = pack (tally ((ys e.1).map assigned)) := by
      unfold packed at found
      split at found
      · cases found
      · exact (Option.some.inj found).symm
    have whole : Attack.recordSize ∣ e.2.length := by
      rw [value, length_pack (keyed_tally _)]
      exact ⟨_, Nat.mul_comm _ _⟩
    rw [records_whole whole]
    rfl
  exact ⟨readable represents.left, readable represents.right⟩

/-- What holds of one chunk and of the neighbours of all chunks it holds of holds of the whole trace. -/
theorem adjacent_closed {S : Fp → Prop} (closed : ∀ p ∈ adjacent trace, S p.1 ↔ S p.2) {x : Fp} (member : x ∈ trace) (start : S x) :
    ∀ y ∈ trace, S y := by
  have head : ∀ y ∈ trace, ∀ a, trace.head? = some a → (S y ↔ S a) := by
    clear member
    induction trace with
    | nil => exact fun y member => absurd member List.not_mem_nil
    | cons a trace ih =>
      intro y member b first
      obtain rfl := Option.some.inj first
      cases trace with
      | nil => rw [List.mem_singleton.mp member]
      | cons b trace =>
        have later := ih fun p inside => closed p (List.mem_cons_of_mem _ inside)
        have step := closed (a, b) List.mem_cons_self
        rcases List.mem_cons.mp member with rfl | member
        · rfl
        · rw [later y member b rfl]
          exact step.symm
  obtain ⟨a, first⟩ : ∃ a, trace.head? = some a := by
    cases trace with
    | nil => cases member
    | cons a _ => exact ⟨a, rfl⟩
  intro y inside
  exact (head y inside a first).mpr ((head x member a first).mp start)

/-! ### The three programs -/

/-- `k_minhash` has encrypted the trace, and `locality_count` has counted it and what was written. -/
structure Prepared (md5 : Fp → Fp → Fp) (relate : OrderedMap Fp Bytes) (fp : Bytes) (t : KMinhash.State)
    (m c : LocalityCount.Databases) : Prop where
  encrypted : KMinhash.main md5 relate fp = some t
  plain : feed [fp] = some m
  cipher : feed [t.out] = some c

/-- The pair is a chunk of the trace with its ciphertext, and so says the `relate` database. -/
def Confirmed (md5 : Fp → Fp → Fp) (fp : Bytes) (t : KMinhash.State) (x : Node × Node) : Prop :=
  x.1.key ∈ traceOf fp ∧ x.2.key = md5 x.1.key x.1.key ∧ t.relate.get x.2.key = some x.1.key.bytes

/-- The queue has room for all chunks, and no list of neighbours is cut off. -/
structure Unbounded (trace : List Fp) (args : Args) : Prop where
  limit : trace.dedup.length ≤ args.queueLimit
  left : ∀ x, (predecessors (adjacent trace) x).dedup.length ≤ args.thK
  right : ∀ x, (successors (adjacent trace) x).dedup.length ≤ args.thK

variable {md5 : Fp → Fp → Fp} {fp : Bytes}

theorem prepared (relate : OrderedMap Fp Bytes) (sized : KMinhash.Sized (bufferLines 256 fp))
    (encryptable : Encryptable (fun x => md5 x x) (traceOf fp)) (untied : Untied (traceOf fp)) (small : (traceOf fp).length < 2 ^ 64) :
    ∃ t m c, Prepared md5 relate fp t m c ∧ Represents (traceOf fp) (adjacent (traceOf fp)) m ∧
      Mirrored (fun x => md5 x x) (.ofCounts m c) ∧ (Databases.ofCounts m c).Readable ∧
      ∀ x ∈ traceOf fp, t.relate.get (md5 x x) = some x.bytes := by
  obtain ⟨t, run, related, printed⟩ := KMinhash.main_printed sized relate
  obtain ⟨m, counted, represents⟩ := feed_represents encryptable.fits
  have fits := encryptable.fits_map
  rw [← printed] at fits
  obtain ⟨c, counted', represents'⟩ := feed_represents fits
  rw [printed] at represents'
  obtain ⟨leftO, rightO⟩ := readable_counts represents
  obtain ⟨leftT, rightT⟩ := readable_counts represents'
  refine ⟨t, m, c, ⟨run, counted, counted'⟩, represents, mirrored_counts encryptable represents represents' small untied,
    ⟨leftO, rightO, leftT, rightT⟩, fun x member => ?_⟩
  rw [related]
  exact KMinhash.recorded_get encryptable.separates relate member

theorem confirmed {t : KMinhash.State} {m c : LocalityCount.Databases}
    (represents : Represents (traceOf fp) (adjacent (traceOf fp)) m)
    (relates : ∀ x ∈ traceOf fp, t.relate.get (md5 x x) = some x.bytes) {s : State}
    (right : RightPairs (fun x => md5 x x) (.ofCounts m c) s) : ∀ x ∈ inferred s.log, Confirmed md5 fp t x := by
  intro x member
  obtain ⟨known, cipher⟩ := right.pairs x member
  have inside : x.1.key ∈ traceOf fp := (known_iff represents).mp known
  have key : x.2.key = md5 x.1.key x.1.key := by
    rw [cipher]
    rfl
  exact ⟨inside, key, by rw [key, relates _ inside]⟩

/-- With the trace itself as auxiliary information and no ties, every pair that is ever inferred is right. -/
theorem inferred_confirmed (relate : OrderedMap Fp Bytes) (sized : KMinhash.Sized (bufferLines 256 fp))
    (encryptable : Encryptable (fun x => md5 x x) (traceOf fp)) (untied : Untied (traceOf fp)) (small : (traceOf fp).length < 2 ^ 64)
    (unleaked : args.leakRate = 0) (init : 0 < args.init) (positive : 0 < args.thK) :
    ∃ t m c s₀, Prepared md5 relate fp t m c ∧ start P (.ofCounts m c) args = some s₀ ∧
      ∀ n s, (mainLoop P (.ofCounts m c) args).Tests s₀ n s → ∀ x ∈ inferred s.log, Confirmed md5 fp t x := by
  obtain ⟨t, m, c, pipeline, represents, mirrored, -, relates⟩ := prepared relate sized encryptable untied small
  obtain ⟨s₀, started, right, expanded, -⟩ := start_mirrored (P := P) mirrored unleaked init
  refine ⟨t, m, c, s₀, pipeline, started, fun n s tested => ?_⟩
  exact confirmed represents relates (head_mirrored mirrored positive right expanded tested).1

/-- With large enough queues the attack ends with every chunk of the trace inferred once, each with its ciphertext. -/
theorem run_recovers (relate : OrderedMap Fp Bytes) (sized : KMinhash.Sized (bufferLines 256 fp))
    (encryptable : Encryptable (fun x => md5 x x) (traceOf fp)) (untied : Untied (traceOf fp)) (small : (traceOf fp).length < 2 ^ 64)
    (unleaked : args.leakRate = 0) (init : 0 < args.init) (positive : 0 < args.thK) (unbounded : Unbounded (traceOf fp) args) :
    ∃ t m c fuel s, Prepared md5 relate fp t m c ∧ run P (.ofCounts m c) args fuel = .finished s ∧
      (∀ x ∈ inferred s.log, Confirmed md5 fp t x) ∧
      ((inferred s.log).map fun x => x.1.key).Perm (traceOf fp).dedup := by
  obtain ⟨t, m, c, pipeline, represents, mirrored, readable, relates⟩ := prepared relate sized encryptable untied small
  obtain ⟨s₀, started, right₀, expanded₀, filled⟩ := start_mirrored (P := P) mirrored unleaked init
  obtain ⟨s, finished⟩ := run_finishes readable positive started
  obtain ⟨n, -, tested, stopped⟩ := Loop.run_finished _ finished
  obtain ⟨right, ⟨new, grown⟩, expanded⟩ := head_mirrored mirrored positive right₀ expanded₀ tested
  have known {x : Fp} : x ∈ m.db.keys ↔ x ∈ traceOf fp := known_iff represents
  have ample : Ample (.ofCounts m c) args := by
    refine ⟨?_, fun x ns read => ?_⟩
    · have keys : m.db.keys ⊆ (traceOf fp).dedup := fun x member => List.mem_dedup.mpr (known.mp member)
      have few := (List.subperm_of_subset m.db.keys_nodup keys).length_le
      rw [OrderedMap.keys, List.length_map] at few
      exact few.trans unbounded.limit
    · have length (ys : List Fp) : (nodes ys).length = ys.dedup.length := by
        unfold nodes
        rw [List.length_map, length_tally]
      rcases read with read | read
      · obtain rfl := Option.some.inj ((leftList encryptable represents small x).symm.trans read)
        rw [length]
        exact unbounded.left x
      · obtain rfl := Option.some.inj ((rightList encryptable represents small x).symm.trans read)
        rw [length]
        exact unbounded.right x
  have pairs := confirmed represents relates right
  refine ⟨t, m, c, _, s, pipeline, by unfold run; rw [started]; exact finished, pairs, ?_⟩
  have distinct : ((inferred s.log).map fun x => x.1.key).Nodup := by
    have ciphers := right.sound.distinct
    rw [right.aligned.2, List.map_map] at ciphers
    have same : (inferred s.log).map (Node.key ∘ Prod.snd) = ((inferred s.log).map fun x => x.1.key).map fun x => md5 x x := by
      rw [List.map_map]
      exact List.map_congr_left fun x member => (pairs x member).2.1
    rw [same] at ciphers
    exact List.Nodup.of_map _ ciphers
  refine (List.perm_ext_iff_of_nodup distinct (List.nodup_dedup _)).mpr fun x => ?_
  rw [List.mem_dedup, List.mem_map]
  constructor
  · rintro ⟨y, member, rfl⟩
    exact (pairs y member).1
  -- What has been inferred has its neighbours inferred, and all chunks of a trace are linked.
  · intro member
    have entries : m.db.entries ≠ [] := by
      obtain ⟨v, found⟩ := OrderedMap.mem_keys.mp (known.mpr member)
      exact List.ne_nil_of_mem ((m.db.get_eq_some _ _).mp found)
    obtain ⟨first, inferred_⟩ := List.exists_mem_of_ne_nil _ (filled entries)
    have first_ : first ∈ inferred s.log := by
      rw [grown]
      exact List.mem_append_left _ inferred_
    refine List.mem_map.mp ?_
    have node {ys : List Fp} {y : Fp} (member : y ∈ ys) : (⟨y, ys.count y⟩ : Node) ∈ nodes ys :=
      mem_nodes.mpr ⟨rfl, List.count_pos_iff.mpr member⟩
    have inside {ys : List Fp} (all : ∀ y ∈ ys, y ∈ traceOf fp) : ∀ n ∈ nodes ys, n.key ∈ m.db.keys := by
      intro n listed
      obtain ⟨counted, some_⟩ := mem_nodes.mp listed
      exact known.mpr (all _ (List.count_pos_iff.mp (counted ▸ some_)))
    have spreads := @closed_of_stopped _ _ _ _ mirrored s right (expanded ample) stopped
    refine adjacent_closed (S := fun y => y ∈ (inferred s.log).map fun x => x.1.key) (fun p near => ⟨fun seen => ?_, fun seen => ?_⟩)
      (pairs first first_).1 (List.mem_map_of_mem first_) x member
    · obtain ⟨z, member, key⟩ := List.mem_map.mp seen
      have read := rightList encryptable represents small z.1.key
      obtain ⟨y, member', key'⟩ := spreads member (.inr read) (inside fun w near => (mem_adjacent (mem_successors.mp near)).2)
        ⟨p.2, _⟩ (node (mem_successors.mpr (by rw [key]; exact near)))
      exact List.mem_map.mpr ⟨y, member', key'⟩
    · obtain ⟨z, member, key⟩ := List.mem_map.mp seen
      have read := leftList encryptable represents small z.1.key
      obtain ⟨y, member', key'⟩ := spreads member (.inl read) (inside fun w near => (mem_adjacent (mem_predecessors.mp near)).1)
        ⟨p.1, _⟩ (node (mem_predecessors.mpr (by rw [key]; exact near)))
      exact List.mem_map.mpr ⟨y, member', key'⟩

def threeArgs : Args := ⟨1, 3, 2, 0, 0, fun _ => 0⟩

theorem untied_untiedTrace : Untied (traceOf KMinhash.untiedTrace) := by
  rw [KMinhash.traceOf_untiedTrace]
  exact ⟨by decide +kernel, by decide +kernel, by decide +kernel⟩

theorem unbounded_untiedTrace : Unbounded (traceOf KMinhash.untiedTrace) threeArgs := by
  have three : (adjacent (traceOf KMinhash.untiedTrace)).length = 3 := by
    rw [KMinhash.traceOf_untiedTrace]
    rfl
  refine ⟨?_, fun x => ?_, fun x => ?_⟩
  · rw [KMinhash.traceOf_untiedTrace]
    decide +kernel
  · refine (List.dedup_sublist _).length_le.trans ?_
    rw [predecessors, List.length_map]
    exact (List.length_filter_le _ _).trans three.le
  · refine (List.dedup_sublist _).length_le.trans ?_
    rw [successors, List.length_map]
    exact (List.length_filter_le _ _).trans three.le

theorem small_untiedTrace : (traceOf KMinhash.untiedTrace).length < 2 ^ 64 := by
  rw [KMinhash.traceOf_untiedTrace]
  decide

theorem inferred_confirmed_untiedTrace :
    ∃ t m c s₀, Prepared KMinhash.digest .empty KMinhash.untiedTrace t m c ∧
      start listHeap (.ofCounts m c) threeArgs = some s₀ ∧
      ∀ n s, (mainLoop listHeap (.ofCounts m c) threeArgs).Tests s₀ n s →
        ∀ x ∈ inferred s.log, Confirmed KMinhash.digest KMinhash.untiedTrace t x :=
  inferred_confirmed .empty KMinhash.sized_untiedTrace KMinhash.encryptable_untiedTrace untied_untiedTrace small_untiedTrace rfl
    (by decide) (by decide)

theorem run_recovers_untiedTrace :
    ∃ t m c fuel s, Prepared KMinhash.digest .empty KMinhash.untiedTrace t m c ∧
      run listHeap (.ofCounts m c) threeArgs fuel = .finished s ∧
      (∀ x ∈ inferred s.log, Confirmed KMinhash.digest KMinhash.untiedTrace t x) ∧
      ((inferred s.log).map fun x => x.1.key).Perm (traceOf KMinhash.untiedTrace).dedup :=
  run_recovers .empty KMinhash.sized_untiedTrace KMinhash.encryptable_untiedTrace untied_untiedTrace small_untiedTrace rfl
    (by decide) (by decide) unbounded_untiedTrace

end EncryptedDedup.LocalityAttack
