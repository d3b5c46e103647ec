import EncryptedDedup.SingleStream.Neighbours
import EncryptedDedup.Lib.TopRanks

/-!
# The ranks of neighbours

Which neighbours of a pair `locality_attack` pairs up. Both bounded heaps are emptied from their least
frequent ends at once, so the ranks agree only if the heaps hold as many.
-/

namespace EncryptedDedup.Attack

variable {P : PriorityQueue Node cmp}

def neighbourList (existing : Option Bytes) : Option (List Node) :=
  match existing with
  | some value => records value
  | none => some []

theorem insertNeighbours_list {existing : Option Bytes} {k : Nat} {h : P.Heap} {xs : List Node}
    (read : neighbourList existing = some xs) : insertNeighbours P existing k h = P.offerAll worse k h xs := by
  unfold neighbourList at read
  unfold insertNeighbours
  cases existing with
  | none =>
    obtain rfl := Option.some.inj read
    rfl
  | some value =>
    dsimp only at read ⊢
    rw [read]
    rfl

/-- The heap of neighbours, from its last element on, is the list of the most frequent ones. -/
theorem drain_insertNeighbours {existing : Option Bytes} {k : Nat} {h : P.Heap} {xs : List Node}
    (read : neighbourList existing = some xs) (distinct : (xs.map Node.count).Nodup)
    (filled : insertNeighbours P existing k P.empty = some h) :
    P.drain h = ((ranked Node.count xs).take k).reverse := by
  rw [insertNeighbours_list read] at filled
  rw [← P.drain_offerAll (fun _ _ => rfl) (fun _ _ => rfl) distinct filled, List.reverse_reverse]

theorem sortChunks_eq (pq pc omp tmp : List Node) : sortChunks pq pc (omp, tmp) =
    ((pq.take pc.length).reverse ++ omp, (pc.take pq.length).reverse ++ tmp) := by
  induction pq generalizing pc omp tmp with
  | nil => simp [sortChunks]
  | cons p pq ih =>
    cases pc with
    | nil => simp [sortChunks]
    | cons c pc =>
      rw [sortChunks, ih]
      simp

/-! ### Aligned ranks -/

section
variable {α β : Type}

theorem reverse_take_reverse (xs : List α) (n : Nat) : (xs.reverse.take n).reverse = xs.drop (xs.length - n) := by
  rw [List.take_reverse, List.reverse_reverse]

theorem head_eq_of_zip {xs : List α} {ys : List β} {xs' : List α} {ys' : List β} (same : xs.zip ys = xs'.zip ys')
    (filled : 0 < xs.length) (filled' : 0 < ys.length) : xs[0]? = xs'[0]? ∧ ys[0]? = ys'[0]? := by
  obtain ⟨x, xs, rfl⟩ := List.exists_cons_of_length_pos filled
  obtain ⟨y, ys, rfl⟩ := List.exists_cons_of_length_pos filled'
  cases xs' with
  | nil => cases same
  | cons x' xs' =>
    cases ys' with
    | nil => cases same
    | cons y' ys' =>
      obtain ⟨rfl, rfl⟩ := Prod.mk.inj (List.cons.inj same).1
      exact ⟨rfl, rfl⟩

theorem zip_ends_iff {xs : List α} {ys : List β} (distinctX : xs.Nodup) (distinctY : ys.Nodup) :
    (xs.drop (xs.length - ys.length)).zip (ys.drop (ys.length - xs.length)) = xs.zip ys ↔
      xs = [] ∨ ys = [] ∨ xs.length = ys.length := by
  constructor
  · intro same
    by_contra uneven
    rw [not_or, not_or, ← ne_eq, ← ne_eq, ← List.length_pos_iff, ← List.length_pos_iff] at uneven
    obtain ⟨filledX, filledY, different⟩ := uneven
    obtain ⟨headX, headY⟩ := head_eq_of_zip same (by rw [List.length_drop]; omega) (by rw [List.length_drop]; omega)
    rw [List.getElem?_drop, Nat.add_zero] at headX headY
    have ranksX := (List.getElem?_inj (by omega) distinctX).mp headX
    have ranksY := (List.getElem?_inj (by omega) distinctY).mp headY
    omega
  · rintro (rfl | rfl | equal)
    · simp
    · simp
    · rw [equal, Nat.sub_self, List.drop_zero, List.drop_zero]

end

/-- For each rank up to `k` that both lists have, the neighbour of that rank of either. -/
def rankPairs (k : Nat) (os ts : List Node) : List (Node × Node) :=
  ((ranked Node.count os).zip (ranked Node.count ts)).take k

/-- Both heaps end with the same number of elements, or one of them with none. -/
def Level (k : Nat) (os ts : List Node) : Prop := os = [] ∨ ts = [] ∨ min k os.length = min k ts.length

instance instDecidableLevel (k : Nat) (os ts : List Node) : Decidable (Level k os ts) :=
  inferInstanceAs (Decidable (_ ∨ _ ∨ _))

theorem sortChunks_rankPairs {existingO existingT : Option Bytes} {k : Nat} {os ts : List Node} (positive : 1 ≤ k)
    (readO : neighbourList existingO = some os) (readT : neighbourList existingT = some ts)
    (distinctO : (os.map Node.count).Nodup) (distinctT : (ts.map Node.count).Nodup) {pq pc : P.Heap}
    (filledO : insertNeighbours P existingO k P.empty = some pq)
    (filledT : insertNeighbours P existingT k P.empty = some pc) :
    (sortChunks (P.drain pq) (P.drain pc) ([], [])).1.zip (sortChunks (P.drain pq) (P.drain pc) ([], [])).2 =
      rankPairs k os ts ↔ Level k os ts := by
  rw [drain_insertNeighbours readO distinctO filledO, drain_insertNeighbours readT distinctT filledT, sortChunks_eq]
  simp only [List.append_nil, List.length_reverse, reverse_take_reverse]
  have nodup : ∀ {xs : List Node}, (xs.map Node.count).Nodup → ((ranked Node.count xs).take k).Nodup := by
    intro xs distinct
    exact (((ranked_perm xs).nodup_iff).mpr (List.Nodup.of_map _ distinct)).sublist (List.take_sublist _ _)
  have empty : ∀ xs : List Node, (ranked Node.count xs).take k = [] ↔ xs = [] := by
    intro xs
    rw [← List.length_eq_zero_iff, List.length_take, length_ranked, ← List.length_eq_zero_iff (l := xs)]
    omega
  unfold rankPairs Level
  rw [List.zip, List.take_zipWith]
  change List.zip _ _ = List.zip _ _ ↔ _
  rw [zip_ends_iff (nodup distinctO) (nodup distinctT), empty, empty, List.length_take,
    List.length_take, length_ranked, length_ranked]

/-- The stacks from which `main_loop` takes the candidates are aligned by rank exactly if the heaps hold as many
neighbours, or one of them none: for the left neighbours and for the right ones. -/
theorem stacks_rankPairs_iff {d : Databases} {args : Args} (positive : 1 ≤ args.thK) (m c : Node)
    {leftO leftT rightO rightT : List Node} (readLO : neighbourList (d.leftO.get m.key) = some leftO)
    (readLT : neighbourList (d.leftT.get c.key) = some leftT) (readRO : neighbourList (d.rightO.get m.key) = some rightO)
    (readRT : neighbourList (d.rightT.get c.key) = some rightT)
    (distinct : ∀ ns ∈ [leftO, leftT, rightO, rightT], (ns.map Node.count).Nodup) :
    (∃ omp tmp, leftStacks P d args m c = some (omp, tmp) ∧ omp.length = tmp.length ∧
      (omp.zip tmp = rankPairs args.thK leftO leftT ↔ Level args.thK leftO leftT)) ∧
    (∃ omp tmp, rightStacks P d args m c = some (omp, tmp) ∧ omp.length = tmp.length ∧
      (omp.zip tmp = rankPairs args.thK rightO rightT ↔ Level args.thK rightO rightT)) := by
  have fill : ∀ {existing : Option Bytes} {ns : List Node}, neighbourList existing = some ns →
      ∃ h, insertNeighbours P existing args.thK P.empty = some h := by
    intro existing ns read
    rw [insertNeighbours_list read]
    exact P.offerAll_isSome worse positive P.empty ns
  obtain ⟨hLO, filledLO⟩ := fill readLO
  obtain ⟨hLT, filledLT⟩ := fill readLT
  obtain ⟨hRO, filledRO⟩ := fill readRO
  obtain ⟨hRT, filledRT⟩ := fill readRT
  have left : leftStacks P d args m c = some (sortChunks (P.drain hLO) (P.drain hLT) ([], [])) := by
    simp only [leftStacks, leftInsert, Databases.left, filledLO, filledLT, Option.bind_eq_bind, Option.bind_some]
  have right : rightStacks P d args m c = some (sortChunks (P.drain hRO) (P.drain hRT) ([], [])) := by
    simp only [rightStacks, rightInsert, Databases.right, filledRO, filledRT, Option.bind_eq_bind, Option.bind_some]
  refine ⟨⟨_, _, left, (leftStacks_spec left).level, ?_⟩, ⟨_, _, right, (rightStacks_spec right).level, ?_⟩⟩
  · exact sortChunks_rankPairs positive readLO readLT (distinct leftO (by simp)) (distinct leftT (by simp))
      filledLO filledLT
  · exact sortChunks_rankPairs positive readRO readRT (distinct rightO (by simp)) (distinct rightT (by simp))
      filledRO filledRT

/-- Chunk 1 has the neighbours 2, 3 and 4, three times, twice and once; in the other trace 2 only, once. -/
def unevenNeighbours : Databases := .ofTraces "1213121314121" "121"

def twoArgs : Args := ⟨1, 2, 10, 0, 0, fun _ => 0⟩

def digit (x : UInt8) (count : Nat) : Node := ⟨Fp.ofBytes [x], count⟩

theorem stacks_rankPairs_iff_uneven :
    (∃ omp tmp, leftStacks listHeap unevenNeighbours twoArgs (digit 1 6) (digit 1 2) = some (omp, tmp) ∧
      omp.length = tmp.length ∧ (omp.zip tmp = rankPairs 2 [digit 2 3, digit 3 2, digit 4 1] [digit 2 1] ↔
        Level 2 [digit 2 3, digit 3 2, digit 4 1] [digit 2 1])) ∧
    (∃ omp tmp, rightStacks listHeap unevenNeighbours twoArgs (digit 1 6) (digit 1 2) = some (omp, tmp) ∧
      omp.length = tmp.length ∧ (omp.zip tmp = rankPairs 2 [digit 2 3, digit 3 2, digit 4 1] [digit 2 1] ↔
        Level 2 [digit 2 3, digit 3 2, digit 4 1] [digit 2 1])) :=
  stacks_rankPairs_iff (by decide) (digit 1 6) (digit 1 2) (by decide +kernel) (by decide +kernel)
    (by decide +kernel) (by decide +kernel) (by decide)

/-- The only neighbour of the ciphertext chunk is paired with the second neighbour of the plaintext chunk. -/
theorem stacks_shifted :
    leftStacks listHeap unevenNeighbours twoArgs (digit 1 6) (digit 1 2) = some ([digit 3 2], [digit 2 1]) ∧
    neighbourList (unevenNeighbours.leftO.get (digit 1 6).key) = some [digit 2 3, digit 3 2, digit 4 1] ∧
    neighbourList (unevenNeighbours.leftT.get (digit 1 2).key) = some [digit 2 1] ∧
    rankPairs 2 [digit 2 3, digit 3 2, digit 4 1] [digit 2 1] = [(digit 2 3, digit 2 1)] ∧
    [digit 3 2].zip [digit 2 1] ≠ rankPairs 2 [digit 2 3, digit 3 2, digit 4 1] [digit 2 1] := by
  have aligned : rankPairs 2 [digit 2 3, digit 3 2, digit 4 1] [digit 2 1] = [(digit 2 3, digit 2 1)] := by
    unfold rankPairs
    rw [← eq_ranked (by decide) (List.Perm.refl _) (by decide), ← eq_ranked (by decide) (List.Perm.refl _) (by decide)]
    rfl
  refine ⟨by decide +kernel, by decide +kernel, by decide +kernel, aligned, ?_⟩
  rw [aligned]
  decide

end EncryptedDedup.Attack
