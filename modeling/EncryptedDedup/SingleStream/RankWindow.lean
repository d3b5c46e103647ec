import EncryptedDedup.SingleStream.EntropyMatching
import EncryptedDedup.Lib.Nearest
import Mathlib.Tactic.FieldSimp
import Mathlib.Tactic.Linarith

/-!
# What `peakToPair` pairs

The candidates of a ciphertext chunk are the plaintext chunks of nearby ranks that were not used, and the
nearest of them is chosen.
-/

namespace EncryptedDedup.EntropyAttack
open Attack

variable {D : Type} [LinearOrder D] {P : PriorityQueue Node cmp} {A : Arith D} {T : Tuning D} {d : Databases}

/-! ### Entropies -/

/-- Small integers are exact, rounding keeps sums below an integer, and no term `-p * log2(p)` is above 1. -/
structure Arith.BoundedEntropy (A : Arith D) : Prop where
  ofNat_lt (m n : Nat) : m < n → n ≤ 2 ^ 53 → A.ofNat m < A.ofNat n
  add_le (n : Nat) (a b : D) : n < 2 ^ 53 → a ≤ A.ofNat n → b ≤ A.ofNat 1 → A.add a b ≤ A.ofNat (n + 1)
  term_le (count sum : Nat) : count < 2 ^ 64 → sum < 2 ^ 64 → sum ≠ 0 →
    A.div (A.ofNat count) (A.ofNat sum) ≠ A.ofNat 0 →
    A.mul (A.neg (A.div (A.ofNat count) (A.ofNat sum)))
      (A.div (A.log (A.div (A.ofNat count) (A.ofNat sum))) (A.log (A.ofNat 2))) ≤ A.ofNat 1

theorem Arith.BoundedEntropy.ofNat_le (bounded : A.BoundedEntropy) {m n : Nat} (le : m ≤ n) (exact_ : n ≤ 2 ^ 53) :
    A.ofNat m ≤ A.ofNat n := by
  rcases Nat.eq_or_lt_of_le le with rfl | lt
  · exact le_refl _
  · exact (bounded.ofNat_lt m n lt exact_).le

theorem entropy_le (bounded : A.BoundedEntropy) {tp : List Node} (counts : ∀ it ∈ tp, it.count < 2 ^ 64)
    (short : tp.length ≤ 2 ^ 53) : entropy A tp ≤ A.ofNat tp.length := by
  unfold entropy
  dsimp only
  generalize total : tp.foldl (fun sum it => (sum + it.count) % 2 ^ 64) 0 = countSum
  have word : countSum < 2 ^ 64 := by
    rw [← total]
    induction tp using List.reverseRecOn with
    | nil => exact Nat.two_pow_pos 64
    | append_singleton tp it _ =>
      rw [List.foldl_append]
      exact Nat.mod_lt _ (Nat.two_pow_pos 64)
  split
  · exact bounded.ofNat_le (Nat.zero_le _) short
  · rename_i filled
    clear total
    induction tp using List.reverseRecOn with
    | nil => exact le_refl _
    | append_singleton tp it ih =>
      rw [List.length_append, List.length_singleton] at short ⊢
      have before := ih (fun x member => counts x (List.mem_append_left _ member)) (Nat.le_of_succ_le short)
      rw [List.foldl_append, List.foldl_cons, List.foldl_nil]
      split
      · rename_i present
        apply bounded.add_le _ _ _ short before
        exact bounded.term_le _ _ (counts it (List.mem_append_right _ List.mem_cons_self)) word filled present
      · exact before.trans (bounded.ofNat_le (Nat.le_succ _) short)

theorem load64_lt {value : Bytes} {pos n : Nat} (read : load64 value pos = some n) : n < 2 ^ 64 := by
  unfold load64 at read
  split at read
  · obtain rfl := Option.some.inj read
    have wide := ofLE_lt (((value ++ [0]).drop pos).take 8)
    have most : 256 ^ (((value ++ [0]).drop pos).take 8).length ≤ 256 ^ 8 :=
      Nat.pow_le_pow_right (by decide) (List.length_take_le _ _)
    exact lt_of_lt_of_le wide (most.trans (by decide))
  · cases read

theorem records_counts {value : Bytes} {entries : List Node} (read : records value = some entries) :
    ∀ x ∈ entries, x.count < 2 ^ 64 := by
  have each : ∀ (n : Nat) (value : Bytes) (entries : List Node), recordsN n value = some entries →
      ∀ x ∈ entries, x.count < 2 ^ 64 := by
    intro n
    induction n with
    | zero =>
      intro value entries read x member
      cases value with
      | nil =>
        obtain rfl := Option.some.inj read
        cases member
      | cons b value => cases read
    | succ n ih =>
      intro value entries read x member
      cases value with
      | nil =>
        obtain rfl := Option.some.inj read
        cases member
      | cons b value =>
        unfold recordsN at read
        obtain ⟨count, loaded, read⟩ := Option.bind_eq_some_iff.mp read
        obtain ⟨rest, later, same⟩ := Option.bind_eq_some_iff.mp read
        obtain rfl := Option.some.inj same
        rcases List.mem_cons.mp member with rfl | old
        · exact load64_lt loaded
        · exact ih _ rest later x old
  exact each value.length value entries read

theorem insertNeighbours_counts {existing : Option Bytes} {k : Nat} {h : P.Heap}
    (filled : insertNeighbours P existing k P.empty = some h) : ∀ x ∈ P.drain h, x.count < 2 ^ 64 := by
  intro x member
  rw [P.mem_drain] at member
  unfold insertNeighbours at filled
  cases existing with
  | none =>
    obtain rfl := Option.some.inj filled
    rw [P.contents_empty] at member
    cases Multiset.notMem_zero x member
  | some value =>
    obtain ⟨entries, read, kept⟩ := Option.bind_eq_some_iff.mp filled
    have origin := Multiset.mem_of_le (P.offerAll_le kept) member
    rw [P.contents_empty, Multiset.add_zero, Multiset.mem_coe] at origin
    exact records_counts read x origin

/-- At most 5000 neighbours are counted, so an entropy is far below the sentinel. -/
theorem measure_small (bounded : A.BoundedEntropy) {type : Side} {n : Node} {c : Candidate D}
    (measured : measure A P d type 5000 n = some c) : c.left < A.ofNat (maxInt - entropyThreshold) := by
  unfold measure at measured
  obtain ⟨ui, filled, measured⟩ := Option.bind_eq_some_iff.mp measured
  obtain ⟨right, -, measured⟩ := Option.bind_eq_some_iff.mp measured
  obtain rfl := Option.some.inj measured
  have few : (P.drain ui).reverse.length ≤ 5000 := by
    rw [List.length_reverse]
    exact insertNeighbours_size filled
  have counts : ∀ it ∈ (P.drain ui).reverse, it.count < 2 ^ 64 := fun it member =>
    insertNeighbours_counts filled it (List.mem_reverse.mp member)
  calc entropy A (P.drain ui).reverse ≤ A.ofNat (P.drain ui).reverse.length :=
        entropy_le bounded counts (few.trans (by decide))
    _ ≤ A.ofNat 5000 := bounded.ofNat_le few (by decide)
    _ < A.ofNat (maxInt - entropyThreshold) := bounded.ofNat_lt _ _ (by decide) (by decide)

/-! ### The window -/

omit [LinearOrder D] in
theorem mem_window_iff {flag i j : Nat} {origins : List (Candidate D)} {o : Candidate D} :
    (o, j) ∈ window T flag i origins ↔
      origins[j]? = some o ∧ i - T.r flag ≤ j ∧ j < min origins.length (i + T.radius) := by
  unfold window
  rw [List.mem_iff_getElem?]
  constructor
  · rintro ⟨k, here⟩
    rw [List.getElem?_take, List.getElem?_drop, List.getElem?_zipIdx] at here
    split at here
    · obtain ⟨o', known, same⟩ := Option.map_eq_some_iff.mp here
      obtain ⟨rfl, rfl⟩ := Prod.mk.inj same
      rw [Nat.zero_add]
      exact ⟨known, by omega, by omega⟩
    · cases here
  · rintro ⟨known, low, high⟩
    refine ⟨j - (i - T.r flag), ?_⟩
    rw [List.getElem?_take_of_lt (by omega), List.getElem?_drop, List.getElem?_zipIdx, Nat.add_sub_cancel' low, known]
    simp

def Considers (T : Tuning D) (flag : Nat) (origins : List (Candidate D)) (i j : Nat) : Prop :=
  ∃ o, (o, j) ∈ window T flag i origins

/-! ### Turns -/

def before (A : Arith D) (T : Tuning D) (queueLimit flag : Nat) (origins targets : List (Candidate D)) (s : State)
    (i : Nat) : Matching D :=
  turns A T queueLimit flag 0 (targets.take i) ⟨s, origins, []⟩

/-- A plaintext chunk that was not used, of a considered rank, within the threshold. -/
def Eligible (A : Arith D) (considered : Nat → Prop) (origins : List (Candidate D)) (t : Candidate D) (m : Matching D)
    (j : Nat) (o : Candidate D) : Prop :=
  considered j ∧ j ∉ m.slots ∧ origins[j]? = some o ∧
    dist A t.left t.right o.left o.right < A.ofNat entropyThreshold

/-- A turn pairs `t` with the nearest eligible chunk, or with none, for one of the three reasons. -/
def Paired (A : Arith D) (queueLimit : Nat) (considered : Nat → Prop) (origins : List (Candidate D)) (t : Candidate D)
    (m m' : Matching D) : Prop :=
  (∃ j o, m' = m.assign (tuning A) t o j ∧ t.node.key ∉ m.state.uniq.keys ∧ m.state.qO.length < queueLimit ∧
    Eligible A considered origins t m j o ∧ ∀ j' o', Eligible A considered origins t m j' o' →
      dist A t.left t.right o.left o.right ≤ dist A t.left t.right o'.left o'.right) ∨
  (m'.slots = m.slots ∧ m'.state.qO = m.state.qO ∧ m'.state.qT = m.state.qT ∧ m'.state.uniq = m.state.uniq ∧
    ((∀ j o, ¬ Eligible A considered origins t m j o) ∨ t.node.key ∈ m.state.uniq.keys ∨
      queueLimit ≤ m.state.qO.length))

/-- Every turn of `peakToPair` pairs among the ranks that are considered. -/
def PairsAmong (A : Arith D) (queueLimit flag : Nat) (origins targets : List (Candidate D)) (s : State)
    (considered : Nat → Nat → Prop) : Prop :=
  ∀ i t, targets[i]? = some t →
    Paired A queueLimit (considered i) origins t (before A (tuning A) queueLimit flag origins targets s i)
      (before A (tuning A) queueLimit flag origins targets s (i + 1))

theorem turns_concat (queueLimit flag i : Nat) (ts : List (Candidate D)) (t : Candidate D) (m : Matching D) :
    turns A T queueLimit flag i (ts ++ [t]) m =
      turns A T queueLimit flag (i + ts.length) [t] (turns A T queueLimit flag i ts m) ∨
    (turns A T queueLimit flag i (ts ++ [t]) m = turns A T queueLimit flag i ts m ∧
      queueLimit ≤ (turns A T queueLimit flag i ts m).state.qO.length) := by
  induction ts generalizing i m with
  | nil => exact .inl rfl
  | cons x ts ih =>
    have shift : i + (x :: ts).length = i + 1 + ts.length := by
      rw [List.length_cons]
      omega
    rw [shift, List.cons_append]
    rcases found : (closest A T x (window T flag i m.origins)).2 with _ | ⟨o, j⟩
    · have turn : ∀ rest, turns A T queueLimit flag i (x :: rest) m = turns A T queueLimit flag (i + 1) rest m := by
        intro rest
        rw [turns, found]
      rw [turn, turn]
      exact ih (i + 1) m
    · by_cases marked : m.state.uniq.contains x.node.key = true
      · have turn : ∀ rest, turns A T queueLimit flag i (x :: rest) m =
            turns A T queueLimit flag (i + 1) rest { m with state := m.state.skip x.node } := by
          intro rest
          rw [turns, found]
          exact if_pos marked
        rw [turn, turn]
        exact ih (i + 1) _
      · by_cases full : m.state.qO.length + 1 > queueLimit
        · have turn : ∀ rest, turns A T queueLimit flag i (x :: rest) m = m := by
            intro rest
            rw [turns, found]
            dsimp only
            rw [if_neg marked, if_pos full]
          rw [turn, turn]
          exact .inr ⟨rfl, by omega⟩
        · have turn : ∀ rest, turns A T queueLimit flag i (x :: rest) m =
              turns A T queueLimit flag (i + 1) rest (m.assign T x o j) := by
            intro rest
            rw [turns, found]
            dsimp only
            rw [if_neg marked, if_neg full]
          rw [turn, turn]
          exact ih (i + 1) _

/-- The plaintext chunks are as they were, but the used ones have no entropies of their own any more. -/
def Overwritten (T : Tuning D) (origins : List (Candidate D)) (m : Matching D) : Prop :=
  ∀ j, m.origins[j]? = origins[j]?.map fun o => if j ∈ m.slots then { o with left := T.maxInt, right := T.maxInt } else o

section
omit [LinearOrder D]

theorem overwritten_start (origins : List (Candidate D)) (s : State) : Overwritten T origins ⟨s, origins, []⟩ := by
  intro j
  simp

variable {origins : List (Candidate D)} {m : Matching D}

theorem Overwritten.get_unused (overwritten : Overwritten T origins m) {j : Nat} (unused : j ∉ m.slots) :
    m.origins[j]? = origins[j]? := by
  rw [overwritten j]
  simp [unused]

theorem Overwritten.length (overwritten : Overwritten T origins m) : m.origins.length = origins.length := by
  apply Nat.le_antisymm
  · have last := overwritten origins.length
    rw [List.getElem?_eq_none (Nat.le_refl _)] at last
    exact List.getElem?_eq_none_iff.mp last
  · have last := overwritten m.origins.length
    rw [List.getElem?_eq_none (Nat.le_refl _)] at last
    exact List.getElem?_eq_none_iff.mp (Option.map_eq_none_iff.mp last.symm)

theorem Overwritten.assign (overwritten : Overwritten T origins m) {j : Nat} {o : Candidate D} (unused : j ∉ m.slots)
    (here : m.origins[j]? = some o) (t : Candidate D) : Overwritten T origins (m.assign T t o j) := by
  intro k
  have old := overwritten.get_unused unused
  rw [here] at old
  show (m.origins.set j { o with left := T.maxInt, right := T.maxInt })[k]? =
    origins[k]?.map fun o => if k ∈ m.slots ++ [j] then { o with left := T.maxInt, right := T.maxInt } else o
  by_cases same : j = k
  · subst same
    rw [List.getElem?_set_self (List.getElem?_eq_some_iff.mp here).1, ← old, Option.map_some,
      if_pos (List.mem_append_right _ List.mem_cons_self)]
  · have other : k ≠ j := Ne.symm same
    rw [List.getElem?_set_ne same, overwritten k]
    simp [other]

end

theorem closest_eq (t : Candidate D) (cs : List (Candidate D × Nat)) : closest A T t cs =
    nearest (fun o => T.admissible (dist A t.left t.right o.1.left o.1.right))
      (fun o => dist A t.left t.right o.1.left o.1.right) T.maxInt cs := rfl

variable {origins targets : List (Candidate D)} {queueLimit flag i : Nat} {s : State} {t : Candidate D} {m : Matching D}

/-- The overwritten chunks are not admissible, so what the loop sees of the window are the unused ones. -/
theorem mem_window_eligible (lawful : A.Lawful) (small : t.left < A.ofNat (maxInt - entropyThreshold))
    (overwritten : Overwritten (tuning A) origins m) {j : Nat} {o : Candidate D} :
    ((o, j) ∈ window (tuning A) flag i m.origins ∧
        (tuning A).admissible (dist A t.left t.right o.left o.right) = true) ↔
      Eligible A (Considers (tuning A) flag origins i) origins t m j o := by
  have ranks : ∀ o', (o', j) ∈ window (tuning A) flag i origins ↔ origins[j]? = some o' ∧ i - (tuning A).r flag ≤ j ∧
      j < min m.origins.length (i + (tuning A).radius) := by
    intro o'
    rw [mem_window_iff, overwritten.length]
  rw [mem_window_iff]
  constructor
  · rintro ⟨⟨here, low, high⟩, admissible⟩
    have unused : j ∉ m.slots := by
      intro used
      rw [overwritten j] at here
      obtain ⟨o', -, same⟩ := Option.map_eq_some_iff.mp here
      rw [if_pos used] at same
      have sentinel : o.left = (tuning A).maxInt := by rw [← same]
      rw [excludes_small lawful small o sentinel] at admissible
      cases admissible
    rw [overwritten.get_unused unused] at here
    exact ⟨⟨o, (ranks o).mpr ⟨here, low, high⟩⟩, unused, here, of_decide_eq_true admissible⟩
  · rintro ⟨⟨o', inside⟩, unused, here, near⟩
    obtain ⟨-, low, high⟩ := (ranks o').mp inside
    exact ⟨⟨(overwritten.get_unused unused).trans here, low, high⟩, decide_eq_true near⟩

theorem turn_paired (lawful : A.Lawful) (bounded : A.BoundedEntropy)
    (small : t.left < A.ofNat (maxInt - entropyThreshold)) (overwritten : Overwritten (tuning A) origins m) :
    Paired A queueLimit (Considers (tuning A) flag origins i) origins t m
        (turns A (tuning A) queueLimit flag i [t] m) ∧
      Overwritten (tuning A) origins (turns A (tuning A) queueLimit flag i [t] m) := by
  have eligible : ∀ j o, _ := fun j o => @mem_window_eligible D _ A origins flag i t m lawful small overwritten j o
  unfold turns
  rw [closest_eq]
  rcases @nearest_spec _ _ _ (fun o => (tuning A).admissible (dist A t.left t.right o.1.left o.1.right))
      (fun o => dist A t.left t.right o.1.left o.1.right) (tuning A).maxInt
      (window (tuning A) flag i m.origins) with ⟨⟨o, j⟩, best, inside, admissible, -, least⟩ | ⟨best, least⟩
  · rw [best]
    have chosen := (eligible j o).mp ⟨inside, admissible⟩
    dsimp only
    split
    · rename_i marked
      exact ⟨.inr ⟨rfl, rfl, rfl, rfl, .inr (.inl (OrderedMap.contains_iff.mp marked))⟩, overwritten⟩
    · rename_i unmarked
      split
      · rename_i full
        exact ⟨.inr ⟨rfl, rfl, rfl, rfl, .inr (.inr (by omega))⟩, overwritten⟩
      · have here := (overwritten.get_unused chosen.2.1).trans chosen.2.2.1
        refine ⟨.inl ⟨j, o, rfl, mt OrderedMap.contains_iff.mpr unmarked, by omega, chosen, fun j' o' other => ?_⟩,
          overwritten.assign chosen.2.1 here t⟩
        obtain ⟨inside', admissible'⟩ := (eligible j' o').mpr other
        exact least (o', j') inside' admissible'
  · rw [best]
    refine ⟨.inr ⟨rfl, rfl, rfl, rfl, .inl fun j o other => ?_⟩, overwritten⟩
    obtain ⟨inside, admissible⟩ := (eligible j o).mpr other
    have far := least (o, j) inside admissible
    have below : A.ofNat entropyThreshold ≤ A.ofNat maxInt := bounded.ofNat_le (by decide) (by decide)
    exact absurd other.2.2.2 (not_lt.mpr (below.trans far))

theorem before_succ (known : targets[i]? = some t) :
    before A T queueLimit flag origins targets s (i + 1) =
      turns A T queueLimit flag i [t] (before A T queueLimit flag origins targets s i) ∨
    (before A T queueLimit flag origins targets s (i + 1) = before A T queueLimit flag origins targets s i ∧
      queueLimit ≤ (before A T queueLimit flag origins targets s i).state.qO.length) := by
  have below := (List.getElem?_eq_some_iff.mp known).1
  have next : targets.take (i + 1) = targets.take i ++ [t] := by
    rw [List.take_add_one, known]
    rfl
  have step := turns_concat (A := A) (T := T) queueLimit flag 0 (targets.take i) t ⟨s, origins, []⟩
  rw [List.length_take_of_le below.le, Nat.zero_add] at step
  unfold before
  rwa [next]

theorem before_overwritten (lawful : A.Lawful) (bounded : A.BoundedEntropy)
    (small : ∀ t ∈ targets, t.left < A.ofNat (maxInt - entropyThreshold)) (i : Nat) :
    Overwritten (tuning A) origins (before A (tuning A) queueLimit flag origins targets s i) := by
  induction i with
  | zero => exact overwritten_start origins s
  | succ i ih =>
    cases known : targets[i]? with
    | none =>
      have past := List.getElem?_eq_none_iff.mp known
      unfold before at ih ⊢
      rw [List.take_of_length_le past] at ih
      rwa [List.take_of_length_le (Nat.le_succ_of_le past)]
    | some t =>
      rcases @before_succ D _ A (tuning A) origins targets queueLimit flag i s t known with turn | ⟨same, -⟩
      · rw [turn]
        exact (turn_paired lawful bounded (small t (List.mem_of_getElem? known)) ih).2
      · rwa [same]

/-- `peakToPair` considers the ranks from `r` below a rank to below `RADIUS` above it, where `r` is `RADIUS` unless the
flag is set, and pairs every ciphertext chunk with the nearest of the plaintext chunks that were not used and are
within the threshold. -/
theorem peakToPair_window {omp tmp : List Node} (lawful : A.Lawful) (bounded : A.BoundedEntropy)
    (measured : candidates P A d omp tmp = some (origins, targets)) (queueLimit flag : Nat) (s : State) :
    (∀ i j, Considers (tuning A) flag origins i j →
      i ≤ j + (if flag = 1 then 0 else 2) ∧ j ≤ i + 2 ∧ j < origins.length) ∧
    (∀ i j, j < origins.length → i ≤ j + (if flag = 1 then 0 else 2) → j < i + 2 →
      Considers (tuning A) flag origins i j) ∧
    PairsAmong A queueLimit flag origins targets s (Considers (tuning A) flag origins) ∧
    before A (tuning A) queueLimit flag origins targets s targets.length =
      peakToPair A (tuning A) queueLimit flag origins targets s := by
  have small : ∀ t ∈ targets, t.left < A.ofNat (maxInt - entropyThreshold) := by
    intro t member
    obtain ⟨n, source⟩ := (candidates_measured measured).2 t member
    exact measure_small bounded source
  have radius : (tuning A).radius = 2 := rfl
  have back : (tuning A).r flag = if flag = 1 then 0 else 2 := rfl
  refine ⟨?_, ?_, ?_, ?_⟩
  · rintro i j ⟨o, inside⟩
    obtain ⟨-, low, high⟩ := mem_window_iff.mp inside
    rw [radius] at high
    rw [← back]
    omega
  · intro i j known low high
    rw [← back] at low
    refine ⟨origins[j], mem_window_iff.mpr ⟨List.getElem?_eq_getElem known, by omega, ?_⟩⟩
    rw [radius]
    omega
  · intro i t known
    have overwritten : Overwritten (tuning A) origins (before A (tuning A) queueLimit flag origins targets s i) :=
      before_overwritten lawful bounded small i
    rcases @before_succ D _ A (tuning A) origins targets queueLimit flag i s t known with turn | ⟨same, full⟩
    · rw [turn]
      exact (turn_paired lawful bounded (small t (List.mem_of_getElem? known)) overwritten).1
    · rw [same]
      exact .inr ⟨rfl, rfl, rfl, rfl, .inr (.inr full)⟩
  · unfold before peakToPair
    rw [List.take_length]

theorem rationals_bounded : rationals.BoundedEntropy where
  ofNat_lt m n lt _ := Nat.cast_lt.mpr lt
  add_le n a b _ first second := by
    show a + b ≤ ((n + 1 : Nat) : ℚ)
    rw [Nat.cast_succ]
    exact add_le_add first (second.trans_eq Nat.cast_one)
  term_le count sum _ _ _ _ := by
    show -((count : ℚ) / sum) * (3 * ((count : ℚ) / sum * (count / sum) - 1) /
      ((count : ℚ) / sum * (count / sum) + 4 * (count / sum) + 1) / (3 * ((2 : Nat) * (2 : Nat) - 1) /
        ((2 : Nat) * (2 : Nat) + 4 * (2 : Nat) + 1))) ≤ ((1 : Nat) : ℚ)
    have nonneg : 0 ≤ (count : ℚ) / sum := div_nonneg (Nat.cast_nonneg _) (Nat.cast_nonneg _)
    generalize (count : ℚ) / sum = po at nonneg
    have positive : 0 < po * po + 4 * po + 1 := by positivity
    have log_two : (3 * (((2 : Nat) : ℚ) * (2 : Nat) - 1) / ((2 : Nat) * (2 : Nat) + 4 * (2 : Nat) + 1)) = 9 / 13 := by
      norm_num
    rw [log_two, Nat.cast_one]
    have whole : -po * (3 * (po * po - 1) / (po * po + 4 * po + 1) / (9 / 13)) =
        13 * (po - po * po * po) / (3 * (po * po + 4 * po + 1)) := by
      field_simp
      ring
    rw [whole, div_le_one₀ (by positivity)]
    nlinarith [mul_nonneg nonneg (mul_nonneg nonneg nonneg), mul_self_nonneg (po - 1)]

def vacant : Databases := ⟨.empty, .empty, .empty, .empty, .empty, .empty⟩

def chunk (x : UInt8) : Candidate ℚ := ⟨⟨Fp.ofBytes [x], 1⟩, 0, 0⟩

deriving instance DecidableEq for Candidate

theorem candidates_vacant : candidates listHeap rationals vacant [(chunk 1).node] [(chunk 2).node, (chunk 3).node] =
    some ([chunk 1], [chunk 2, chunk 3]) := by decide +kernel

theorem peakToPair_window_vacant :
    PairsAmong rationals 10 0 [chunk 1] [chunk 2, chunk 3] .init (Considers (tuning rationals) 0 [chunk 1]) :=
  (peakToPair_window rationals_lawful rationals_bounded candidates_vacant 10 0 .init).2.2.1

/-- Below the first ciphertext chunk, which has a mark, the second does not look at the plaintext chunk of rank 0. -/
theorem peakToPair_below :
    candidates listHeap rationals vacant [(chunk 1).node] [(chunk 2).node, (chunk 3).node] =
      some ([chunk 1], [chunk 2, chunk 3]) ∧
    ¬ PairsAmong rationals 10 1 [chunk 1] [chunk 2, chunk 3]
      { State.init with uniq := OrderedMap.empty.put (Fp.ofBytes [2]) (Fp.ofBytes [1]).bytes }
      fun i j => i ≤ j + 2 ∧ j ≤ i + 2 := by
  refine ⟨candidates_vacant, fun pairs => ?_⟩
  have eligible : Eligible rationals (fun j => 1 ≤ j + 2 ∧ j ≤ 1 + 2) [chunk 1] (chunk 3)
      (before rationals (tuning rationals) 10 1 [chunk 1] [chunk 2, chunk 3]
        { State.init with uniq := OrderedMap.empty.put (Fp.ofBytes [2]) (Fp.ofBytes [1]).bytes } 1) 0 (chunk 1) :=
    ⟨by decide, by decide +kernel, rfl, by decide +kernel⟩
  rcases pairs 1 (chunk 3) rfl with ⟨j, o, assigned, -⟩ | ⟨-, -, -, -, none | marked | full⟩
  · have slots := congrArg (fun m : Matching ℚ => m.slots.length) assigned
    revert slots
    show ¬ _ = (_ ++ [j]).length
    rw [List.length_append]
    have nothing : (before rationals (tuning rationals) 10 1 [chunk 1] [chunk 2, chunk 3]
      { State.init with uniq := OrderedMap.empty.put (Fp.ofBytes [2]) (Fp.ofBytes [1]).bytes } (1 + 1)).slots.length = 0 := by
      decide +kernel
    rw [nothing]
    exact (Nat.succ_ne_zero _).symm
  · exact none 0 (chunk 1) eligible
  · revert marked
    decide +kernel
  · revert full
    decide +kernel

end EncryptedDedup.EntropyAttack
