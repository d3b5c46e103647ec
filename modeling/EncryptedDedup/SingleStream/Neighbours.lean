import EncryptedDedup.SingleStream.Leaks
import EncryptedDedup.SingleStream.LocalityCount
import EncryptedDedup.Lib.Loop
import Mathlib.Data.Finset.Card

/-!
# Neighbours and top chunks

Where the candidates of both attacks come from, and when reading them is defined.
-/

namespace EncryptedDedup.Attack

def storedKeys (store : OrderedMap Fp Bytes) : List Fp :=
  store.entries.flatMap fun e => ((records e.2).getD []).map Node.key

def neighboursT (d : Databases) : Finset Fp := (storedKeys d.leftT ++ storedKeys d.rightT).toFinset

/-- The number of ciphertext chunks enqueued before the main loop, and of those it can add. -/
def iterationBound (d : Databases) (s₀ : State) : Nat := (pushedT s₀.log).length + (neighboursT d).card

/-- A pair of stored neighbours. -/
def Neighbours (d : Databases) (p c : Node) : Prop :=
  p.key ∈ storedKeys d.leftO ++ storedKeys d.rightO ∧ c.key ∈ storedKeys d.leftT ++ storedKeys d.rightT

/-- Every stored neighbour is a key of the frequency database on its side. -/
structure Databases.Closed (d : Databases) : Prop where
  o : ∀ k ∈ storedKeys d.leftO ++ storedKeys d.rightO, k ∈ d.origin.keys
  t : ∀ k ∈ storedKeys d.leftT ++ storedKeys d.rightT, k ∈ d.target.keys

theorem Databases.Closed.neighbours {d : Databases} (closed : d.Closed) : Attack.Closed d (Neighbours d) :=
  fun p c near => ⟨closed.o p.key near.1, closed.t c.key near.2⟩

def Readable (store : OrderedMap Fp Bytes) : Prop := ∀ e ∈ store.entries, (records e.2).isSome

structure Databases.Readable (d : Databases) : Prop where
  leftO : Attack.Readable d.leftO
  rightO : Attack.Readable d.rightO
  leftT : Attack.Readable d.leftT
  rightT : Attack.Readable d.rightT

/-- Every value can be read: the frequencies hold a count, the neighbours whole records. -/
structure Databases.Legible (d : Databases) : Prop extends d.Readable where
  counts : ∀ e, e ∈ d.origin.entries ∨ e ∈ d.target.entries → (nodeOf e).isSome

/-- The databases that `locality_count` leaves for a plaintext and a ciphertext trace. -/
def Databases.ofCounts (m c : LocalityCount.Databases) : Databases :=
  ⟨m.db, m.storeLeft, m.storeRight, c.db, c.storeLeft, c.storeRight⟩

def traceFile (digits : String) : Bytes :=
  chars (digits.toList.flatMap fun digit => '0' :: digit :: ":00:00:00:00:00\t8192\t10\n".toList)

def Databases.ofTraces (m c : String) : Databases :=
  .ofCounts ((LocalityCount.feed [traceFile m]).getD .empty) ((LocalityCount.feed [traceFile c]).getD .empty)

def listHeap : PriorityQueue Node cmp :=
  listQueue cmp (by simp [cmp]) (by simp only [cmp, decide_eq_true_eq]; omega)

section Heaps

variable {P : PriorityQueue Node cmp}

theorem insertNeighbours_mem {store : OrderedMap Fp Bytes} {fp : Fp} {k : Nat} {h : P.Heap}
    (filled : insertNeighbours P (store.get fp) k P.empty = some h) :
    ∀ x ∈ P.drain h, x.key ∈ storedKeys store := by
  intro x member
  rw [P.mem_drain] at member
  unfold insertNeighbours at filled
  cases found : store.get fp with
  | none =>
    rw [found] at filled
    obtain rfl := Option.some.inj filled
    rw [P.contents_empty] at member
    cases Multiset.notMem_zero x member
  | some value =>
    rw [found] at filled
    obtain ⟨entries, read, kept⟩ := Option.bind_eq_some_iff.mp filled
    have origin := Multiset.mem_of_le (P.offerAll_le kept) member
    rw [P.contents_empty, Multiset.add_zero, Multiset.mem_coe] at origin
    refine List.mem_flatMap.mpr ⟨(fp, value), (store.get_eq_some fp value).mp found, ?_⟩
    rw [read, Option.getD_some]
    exact List.mem_map_of_mem origin

theorem insertNeighbours_isSome {store : OrderedMap Fp Bytes} (readable : Readable store) (fp : Fp)
    {k : Nat} (positive : 0 < k) : ∃ h, insertNeighbours P (store.get fp) k P.empty = some h := by
  unfold insertNeighbours
  cases found : store.get fp with
  | none => exact ⟨_, rfl⟩
  | some value =>
    obtain ⟨entries, read⟩ := Option.isSome_iff_exists.mp
      (readable (fp, value) ((store.get_eq_some fp value).mp found))
    obtain ⟨h, kept⟩ := P.offerAll_isSome worse positive P.empty entries
    refine ⟨h, ?_⟩
    dsimp only at read ⊢
    rw [read]
    exact kept

theorem insertNeighbours_size {existing : Option Bytes} {k : Nat} {h : P.Heap}
    (filled : insertNeighbours P existing k P.empty = some h) : (P.drain h).length ≤ k := by
  unfold insertNeighbours at filled
  rw [P.length_drain]
  cases existing with
  | none =>
    obtain rfl := Option.some.inj filled
    rw [P.size_empty]
    exact Nat.zero_le _
  | some value =>
    obtain ⟨entries, -, kept⟩ := Option.bind_eq_some_iff.mp filled
    rw [P.offerAll_size (by rw [P.size_empty]; exact Nat.zero_le _) kept]
    exact Nat.min_le_left _ _

theorem sortChunks_spec (pq pc omp tmp : List Node) (level : omp.length = tmp.length) :
    (sortChunks pq pc (omp, tmp)).1.length = (sortChunks pq pc (omp, tmp)).2.length ∧
    (∀ x ∈ (sortChunks pq pc (omp, tmp)).1, x ∈ pq ∨ x ∈ omp) ∧
    ∀ x ∈ (sortChunks pq pc (omp, tmp)).2, x ∈ pc ∨ x ∈ tmp := by
  induction pq generalizing pc omp tmp with
  | nil => exact ⟨level, fun x member => Or.inr member, fun x member => Or.inr member⟩
  | cons p pq ih =>
    cases pc with
    | nil => exact ⟨level, fun x member => Or.inr member, fun x member => Or.inr member⟩
    | cons c pc =>
      obtain ⟨heights, fromO, fromT⟩ := ih pc (p :: omp) (c :: tmp) (by simp [level])
      refine ⟨heights, fun x member => ?_, fun x member => ?_⟩
      · rcases fromO x member with rest | stack
        · exact Or.inl (List.mem_cons_of_mem _ rest)
        · rcases List.mem_cons.mp stack with rfl | below
          · exact Or.inl List.mem_cons_self
          · exact Or.inr below
      · rcases fromT x member with rest | stack
        · exact Or.inl (List.mem_cons_of_mem _ rest)
        · rcases List.mem_cons.mp stack with rfl | below
          · exact Or.inl List.mem_cons_self
          · exact Or.inr below

theorem sortChunks_length (pq pc omp tmp : List Node) :
    (sortChunks pq pc (omp, tmp)).1.length = min pq.length pc.length + omp.length := by
  induction pq generalizing pc omp tmp with
  | nil => simp [sortChunks]
  | cons p pq ih =>
    cases pc with
    | nil => simp [sortChunks]
    | cons c pc =>
      rw [sortChunks, ih, List.length_cons, List.length_cons, List.length_cons]
      omega

theorem sortChunks_filled {storeO storeT : OrderedMap Fp Bytes} {p c : Fp} {k : Nat} {pq pc : P.Heap}
    {omp tmp : List Node} (filledO : insertNeighbours P (storeO.get p) k P.empty = some pq)
    (filledT : insertNeighbours P (storeT.get c) k P.empty = some pc)
    (sorted : sortChunks (P.drain pq) (P.drain pc) ([], []) = (omp, tmp)) :
    omp.length = tmp.length ∧ omp.length ≤ k ∧ (∀ x ∈ omp, x.key ∈ storedKeys storeO) ∧
      ∀ x ∈ tmp, x.key ∈ storedKeys storeT := by
  obtain ⟨level, fromO, fromT⟩ := sortChunks_spec (P.drain pq) (P.drain pc) [] [] rfl
  have height := sortChunks_length (P.drain pq) (P.drain pc) [] []
  rw [sorted] at level fromO fromT height
  refine ⟨level, ?_, fun x onO => ?_, fun x onT => ?_⟩
  · have size := insertNeighbours_size filledO
    rw [height, List.length_nil]
    omega
  · apply insertNeighbours_mem filledO
    exact (fromO x onO).resolve_right List.not_mem_nil
  · apply insertNeighbours_mem filledT
    exact (fromT x onT).resolve_right List.not_mem_nil

/-- Both stacks are as high, and every node on them is a stored neighbour. -/
structure Stacked (d : Databases) (args : Args) (omp tmp : List Node) : Prop where
  level : omp.length = tmp.length
  height : omp.length ≤ args.thK
  neighbours : ∀ p ∈ omp, ∀ c ∈ tmp, Neighbours d p c

theorem leftStacks_spec {d : Databases} {args : Args} {p c : Node} {omp tmp : List Node}
    (built : leftStacks P d args p c = some (omp, tmp)) : Stacked d args omp tmp := by
  unfold leftStacks at built
  obtain ⟨pq, filledO, built⟩ := Option.bind_eq_some_iff.mp built
  obtain ⟨pc, filledT, built⟩ := Option.bind_eq_some_iff.mp built
  obtain ⟨level, height, fromO, fromT⟩ := sortChunks_filled filledO filledT (Option.some.inj built)
  refine ⟨level, height, fun x onO y onT => ⟨?_, ?_⟩⟩
  · exact List.mem_append_left _ (fromO x onO)
  · exact List.mem_append_left _ (fromT y onT)

theorem rightStacks_spec {d : Databases} {args : Args} {p c : Node} {omp tmp : List Node}
    (built : rightStacks P d args p c = some (omp, tmp)) : Stacked d args omp tmp := by
  unfold rightStacks at built
  obtain ⟨pq, filledO, built⟩ := Option.bind_eq_some_iff.mp built
  obtain ⟨pc, filledT, built⟩ := Option.bind_eq_some_iff.mp built
  obtain ⟨level, height, fromO, fromT⟩ := sortChunks_filled filledO filledT (Option.some.inj built)
  refine ⟨level, height, fun x onO y onT => ⟨?_, ?_⟩⟩
  · exact List.mem_append_right _ (fromO x onO)
  · exact List.mem_append_right _ (fromT y onT)

theorem stacks_isSome {d : Databases} {args : Args} (readable : d.Readable) (positive : 0 < args.thK)
    (p c : Node) :
    (∃ stacked, leftStacks P d args p c = some stacked) ∧ ∃ stacked, rightStacks P d args p c = some stacked := by
  obtain ⟨leftO, filledLO⟩ := insertNeighbours_isSome (P := P) readable.leftO p.key positive
  obtain ⟨leftT, filledLT⟩ := insertNeighbours_isSome (P := P) readable.leftT c.key positive
  obtain ⟨rightO, filledRO⟩ := insertNeighbours_isSome (P := P) readable.rightO p.key positive
  obtain ⟨rightT, filledRT⟩ := insertNeighbours_isSome (P := P) readable.rightT c.key positive
  constructor
  · refine ⟨sortChunks (P.drain leftO) (P.drain leftT) ([], []), ?_⟩
    simp only [leftStacks, leftInsert, Databases.left, filledLO, filledLT, Option.bind_eq_bind, Option.bind_some]
  · refine ⟨sortChunks (P.drain rightO) (P.drain rightT) ([], []), ?_⟩
    simp only [rightStacks, rightInsert, Databases.right, filledRO, filledRT, Option.bind_eq_bind, Option.bind_some]

theorem map_of_mapM {α β γ : Type} {f : α → Option β} {g : β → γ} {h : α → γ}
    (agree : ∀ x y, f x = some y → g y = h x) {xs : List α} {ys : List β} (run : xs.mapM f = some ys) :
    ys.map g = xs.map h := by
  induction xs generalizing ys with
  | nil =>
    obtain rfl := Option.some.inj run
    rfl
  | cons x xs ih =>
    rw [List.mapM_cons] at run
    obtain ⟨first, one, run⟩ := Option.bind_eq_some_iff.mp run
    obtain ⟨rest, tail, run⟩ := Option.bind_eq_some_iff.mp run
    obtain rfl := Option.some.inj run
    rw [List.map_cons, List.map_cons, ih tail, agree x first one]

theorem keys_nodes {entries : List (Fp × Bytes)} {nodes : List Node}
    (read : entries.mapM nodeOf = some nodes) : nodes.map Node.key = entries.map Prod.fst :=
  map_of_mapM (fun _ _ => nodeOf_key) read

theorem topChunks_spec {db : OrderedMap Fp Bytes} {args : Args} {top : List Node}
    (scanned : topChunks P db args = some top) :
    top.length = min args.init db.entries.length ∧ (top.map Node.key).Nodup ∧
      ∀ x ∈ top, x.key ∈ db.keys := by
  unfold topChunks dbInsert at scanned
  obtain ⟨h, filled, scanned⟩ := Option.bind_eq_some_iff.mp scanned
  obtain ⟨nodes, read, kept⟩ := Option.bind_eq_some_iff.mp filled
  obtain rfl := Option.some.inj scanned
  have keys := keys_nodes read
  have size := P.offerAll_size (by rw [P.size_empty]; exact Nat.zero_le _) kept
  have contents : ((P.drain h : List Node) : Multiset Node) ≤ (nodes : Multiset Node) := by
    have kept_le := P.offerAll_le kept
    rwa [P.contents_empty, Multiset.add_zero, ← P.drain_contents] at kept_le
  have sub : (P.drain h).Subperm nodes := Multiset.coe_le.mp contents
  have count : nodes.length = db.entries.length := by
    rw [← List.length_map (f := Node.key), keys, List.length_map]
  refine ⟨?_, ?_, ?_⟩
  · rw [List.length_reverse, P.length_drain, size, P.size_empty, Nat.zero_add, count]
  · rw [List.map_reverse, List.nodup_reverse]
    obtain ⟨l, perm, sublist⟩ := sub
    rw [← (perm.map Node.key).nodup_iff]
    refine (sublist.map Node.key).nodup ?_
    rw [keys]
    exact db.keys_nodup
  · intro x member
    have inside := sub.subset (List.mem_reverse.mp member)
    show x.key ∈ db.entries.map Prod.fst
    rw [← keys]
    exact List.mem_map_of_mem inside

theorem topChunks_isSome {db : OrderedMap Fp Bytes} {args : Args} (init : 0 < args.init)
    (counts : ∀ e ∈ db.entries, (nodeOf e).isSome) : ∃ top, topChunks P db args = some top := by
  have read : ∃ nodes, db.entries.mapM nodeOf = some nodes := by
    revert counts
    induction db.entries with
    | nil => exact fun _ => ⟨[], rfl⟩
    | cons e entries ih =>
      intro counts
      obtain ⟨n, first⟩ := Option.isSome_iff_exists.mp (counts e List.mem_cons_self)
      obtain ⟨nodes, rest⟩ := ih fun e member => counts e (List.mem_cons_of_mem _ member)
      exact ⟨n :: nodes, by rw [List.mapM_cons, first]; simp [rest]⟩
  obtain ⟨nodes, read⟩ := read
  obtain ⟨h, kept⟩ := P.offerAll_isSome worse init P.empty nodes
  exact ⟨(P.drain h).reverse, by simp [topChunks, dbInsert, read, kept]⟩

end Heaps

theorem iteration_grow {d : Databases} {R : Rules} {s t : State} (iteration : Iteration R (Neighbours d) s t) :
    ∃ new, (pushedT t.log).map Node.key = (pushedT s.log).map Node.key ++ new ∧
      (∀ k ∈ new, k ∈ neighboursT d) ∧ t.qT.length + 1 = s.qT.length + new.length := by
  obtain ⟨p, c, mid, -, headT, moves, rfl⟩ := iteration
  obtain ⟨new, -, qT, -, logT, chosen⟩ := moves.grow
  have queue : (s.examine p c).qT = s.qT := by
    unfold State.examine
    split <;> rfl
  refine ⟨(new.map Prod.snd).map Node.key, ?_, ?_, ?_⟩
  · show (pushedT mid.log).map Node.key = _
    rw [logT, List.map_append, examine_log]
  · intro k member
    obtain ⟨c', pushed, rfl⟩ := List.mem_map.mp member
    obtain ⟨x, inside, rfl⟩ := List.mem_map.mp pushed
    exact List.mem_toFinset.mpr (chosen x inside).2
  · show mid.qT.tail.length + 1 = _
    have filled : 0 < s.qT.length := by
      cases whole : s.qT with
      | nil =>
        rw [whole] at headT
        cases headT
      | cons _ _ => exact Nat.succ_pos _
    rw [qT, queue, List.length_tail, List.length_append, List.length_map, List.length_map, List.length_map]
    omega

/-- A main loop whose turns are iterations ends: it takes a ciphertext chunk each time, and only ever
pushes new ones from the neighbour databases. -/
theorem iterations_lt {τ : Type} (L : Loop τ) (state : τ → State) {d : Databases} {R : Rules}
    (turn : ∀ u v, L.body u = some v → Iteration R (Neighbours d) (state u) (state v))
    (filled : ∀ u, L.guard u = true → (state u).qT ≠ []) {s t : τ} {n : Nat} (sound : Sound (state s))
    (tested : L.Tests s n t) (guarded : L.guard t = true) : n < iterationBound d (state s) := by
  have pending : (state s).qT.length ≤ (pushedT (state s).log).length := by
    rw [sound.queueT, List.length_drop]
    exact Nat.sub_le _ _
  refine lt_of_lt_of_le ?_ (Nat.add_le_add_right pending _)
  refine L.worklist_bound (fun u => Sound (state u)) (fun u => (pushedT (state u).log).map Node.key)
    (fun u => (state u).qT.length) sound ?_ (fun u sound => sound.distinct) ?_ ?_ tested guarded
  · exact fun u v sound _ moved => sound.iteration (turn u v moved)
  · exact fun u _ guarded => List.length_pos_of_ne_nil (filled u guarded)
  · exact fun u v _ _ moved => iteration_grow (turn u v moved)

end EncryptedDedup.Attack
