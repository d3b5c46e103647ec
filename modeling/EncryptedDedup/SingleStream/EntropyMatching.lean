import EncryptedDedup.SingleStream.EntropyRun
import EncryptedDedup.Lib.Fallible

/-!
# One-to-one matching in `entropy_attack`

Within a call of `peakToPair` a plaintext chunk is used once because its entropies are overwritten;
over the whole run a ciphertext chunk is used once because it is marked.
-/

namespace EncryptedDedup.EntropyAttack
open Attack

variable {D : Type} [LinearOrder D] {P : PriorityQueue Node cmp} {A : Arith D} {T : Tuning D}
  {d : Databases} {args : Args}

/-! ### Doubles -/

/-- What the sentinel relies on: rounding keeps the order, and small integers are exact. -/
structure Arith.Lawful (A : Arith D) : Prop where
  sub_le_sub (a b c : D) : a ≤ b → A.sub a c ≤ A.sub b c
  sub_ofNat (m n : Nat) : m ≤ n → n ≤ 2 ^ 53 → A.sub (A.ofNat m) (A.ofNat n) = A.neg (A.ofNat (n - m))
  one_le_square (a : D) : a ≤ A.neg (A.ofNat 1) → A.ofNat 1 ≤ A.mul a a
  square_nonneg (a : D) : A.ofNat 0 ≤ A.mul a a
  le_add (a b : D) : A.ofNat 0 ≤ b → a ≤ A.add a b
  sqrt_le_sqrt (a b : D) : a ≤ b → A.sqrt a ≤ A.sqrt b
  sqrt_one : A.sqrt (A.ofNat 1) = A.ofNat 1

/-- An overwritten chunk is at least the threshold away. -/
theorem threshold_le_dist (lawful : A.Lawful) {l r r' : D} (small : l < A.ofNat (maxInt - entropyThreshold)) :
    A.ofNat entropyThreshold ≤ dist A l r (A.ofNat maxInt) r' := by
  have gap : A.sub l (A.ofNat maxInt) ≤ A.neg (A.ofNat 1) := by
    have exact_one := lawful.sub_ofNat (maxInt - entropyThreshold) maxInt (by decide) (by decide)
    rw [show maxInt - (maxInt - entropyThreshold) = 1 from rfl] at exact_one
    exact exact_one ▸ lawful.sub_le_sub _ _ _ small.le
  calc A.ofNat entropyThreshold = A.sqrt (A.ofNat 1) := lawful.sqrt_one.symm
    _ ≤ dist A l r (A.ofNat maxInt) r' := by
      apply lawful.sqrt_le_sqrt
      exact (lawful.one_le_square _ gap).trans (lawful.le_add _ _ (lawful.square_nonneg _))

/-! ### Positions -/

/-- Every position is assigned once, and its entropy is overwritten. -/
structure Used (T : Tuning D) (m : Matching D) : Prop where
  once : m.slots.Nodup
  overwritten : ∀ j ∈ m.slots, ∀ o, m.origins[j]? = some o → o.left = T.maxInt

/-- A chunk whose entropy is overwritten is no candidate for `t`. -/
def Excludes (A : Arith D) (T : Tuning D) (t : Candidate D) : Prop :=
  ∀ o : Candidate D, o.left = T.maxInt → T.admissible (dist A t.left t.right o.left o.right) = false

omit [LinearOrder D] in
theorem Used.assign {m : Matching D} {t o : Candidate D} {j : Nat} (used : Used T m)
    (excludes : Excludes A T t) (here : m.origins[j]? = some o)
    (admissible : T.admissible (dist A t.left t.right o.left o.right) = true) : Used T (m.assign T t o j) := by
  have fresh : j ∉ m.slots := by
    intro taken
    rw [excludes o (used.overwritten j taken o here)] at admissible
    cases admissible
  constructor
  · show (m.slots ++ [j]).Nodup
    rw [← List.concat_eq_append, List.nodup_concat]
    exact ⟨fresh, used.once⟩
  · intro i member x there
    have set : (m.origins.set j { o with left := T.maxInt, right := T.maxInt })[i]? = some x := there
    rcases List.mem_append.mp member with old | now
    · have different : j ≠ i := fun same => fresh (same ▸ old)
      rw [List.getElem?_set_ne different] at set
      exact used.overwritten i old x set
    · rw [List.mem_singleton.mp now, List.getElem?_set_self (List.getElem?_eq_some_iff.mp here).1] at set
      rw [← Option.some.inj set]

theorem turns_used (queueLimit flag i : Nat) (targets : List (Candidate D)) (m : Matching D)
    (excludes : ∀ t ∈ targets, Excludes A T t) (used : Used T m) :
    Used T (turns A T queueLimit flag i targets m) := by
  induction targets generalizing i m with
  | nil => exact used
  | cons t targets ih =>
    have rest : ∀ t ∈ targets, Excludes A T t := fun t member => excludes t (List.mem_cons_of_mem _ member)
    rcases turns_cons (A := A) (T := T) queueLimit flag i t targets m with
      same | ⟨-, same⟩ | same | ⟨o, j, here, admissible, -, -, same⟩
    · rw [same]
      exact ih (i + 1) m rest used
    · rw [same]
      exact ih (i + 1) _ rest ⟨used.once, used.overwritten⟩
    · rw [same]
      exact used
    · rw [same]
      exact ih (i + 1) _ rest (used.assign (excludes t List.mem_cons_self) here admissible)

theorem peakToPair_slots (queueLimit flag : Nat) (origins targets : List (Candidate D)) (s : State)
    (excludes : ∀ t ∈ targets, Excludes A T t) :
    (peakToPair A T queueLimit flag origins targets s).slots.Nodup :=
  (turns_used queueLimit flag 0 targets ⟨s, origins, []⟩ excludes
    ⟨List.nodup_nil, fun _ member => absurd member List.not_mem_nil⟩).once

/-! ### Entropies of a run -/

/-- The entropies of all ciphertext chunks are below the sentinel by more than the threshold. -/
def SmallEntropies (P : PriorityQueue Node cmp) (A : Arith D) (d : Databases) : Prop :=
  ∀ n c, measure A P d .t 5000 n = some c →
    c.left < A.ofNat (maxInt - entropyThreshold) ∧ c.right < A.ofNat (maxInt - entropyThreshold)

theorem getEntropy_measured {stack : List Node} {type : Side} {num : Nat} {cs : List (Candidate D)}
    (measured : getEntropy A P d stack type num = some cs) {c : Candidate D} (member : c ∈ cs) :
    ∃ n, measure A P d type num n = some c := by
  unfold getEntropy at measured
  split at measured
  · obtain ⟨n, -, same⟩ := mem_of_mapM measured member
    exact ⟨n, same⟩
  · cases measured

theorem candidates_measured {omp tmp : List Node} {origins targets : List (Candidate D)}
    (measured : candidates P A d omp tmp = some (origins, targets)) :
    (∀ o ∈ origins, ∃ n, measure A P d .o 5000 n = some o) ∧
      ∀ t ∈ targets, ∃ n, measure A P d .t 5000 n = some t := by
  unfold candidates at measured
  obtain ⟨os, measuredO, measured⟩ := Option.bind_eq_some_iff.mp measured
  obtain ⟨ts, measuredT, measured⟩ := Option.bind_eq_some_iff.mp measured
  obtain ⟨rfl, rfl⟩ := Prod.mk.inj (Option.some.inj measured)
  exact ⟨fun o member => getEntropy_measured measuredO member, fun t member => getEntropy_measured measuredT member⟩

theorem called_measured {s : State} {origins targets : List (Candidate D)} {flag : Nat}
    (called : Called P A T d args s origins targets flag) {t : Candidate D} (member : t ∈ targets) :
    ∃ n, measure A P d .t 5000 n = some t := by
  cases called with
  | scan _ _ stacked =>
    unfold topCandidates at stacked
    obtain ⟨tmpA, -, stacked⟩ := Option.bind_eq_some_iff.mp stacked
    obtain ⟨tmpB, -, measured⟩ := Option.bind_eq_some_iff.mp stacked
    exact (candidates_measured measured).2 t member
  | left _ _ _ _ stacked =>
    unfold leftCandidates at stacked
    obtain ⟨built, -, measured⟩ := Option.bind_eq_some_iff.mp stacked
    exact (candidates_measured measured).2 t member
  | right _ _ _ _ _ stacked =>
    unfold rightCandidates at stacked
    obtain ⟨built, -, measured⟩ := Option.bind_eq_some_iff.mp stacked
    exact (candidates_measured measured).2 t member

theorem excludes_small (lawful : A.Lawful) {t : Candidate D} (small : t.left < A.ofNat (maxInt - entropyThreshold)) :
    Excludes A (tuning A) t := by
  intro o overwritten
  rw [overwritten]
  exact decide_eq_false (not_lt.mpr (threshold_le_dist lawful small))

/-! ### Termination -/

theorem measure_isSome (readable : d.Readable) (type : Side) (n : Node) :
    ∃ c, measure A P d type 5000 n = some c := by
  have positive : 0 < 5000 := by decide
  have insert : (∃ ui, leftInsert P d type n.key 5000 P.empty = some ui) ∧
      ∃ ui, rightInsert P d type n.key 5000 P.empty = some ui := by
    cases type with
    | o => exact ⟨insertNeighbours_isSome readable.leftO n.key positive,
        insertNeighbours_isSome readable.rightO n.key positive⟩
    | t => exact ⟨insertNeighbours_isSome readable.leftT n.key positive,
        insertNeighbours_isSome readable.rightT n.key positive⟩
  obtain ⟨⟨left, filledL⟩, right, filledR⟩ := insert
  refine ⟨⟨n, entropy A (P.drain left).reverse, entropy A (P.drain right).reverse⟩, ?_⟩
  simp only [measure, filledL, filledR, Option.bind_eq_bind, Option.bind_some]

theorem getEntropy_isSome (readable : d.Readable) (type : Side) {stack : List Node} (low : stack.length ≤ maxU) :
    ∃ cs, getEntropy A P d stack type 5000 = some cs := by
  unfold getEntropy
  rw [if_pos low]
  clear low
  induction stack with
  | nil => exact ⟨[], rfl⟩
  | cons n stack ih =>
    obtain ⟨c, one⟩ := measure_isSome (A := A) (P := P) readable type n
    obtain ⟨cs, rest⟩ := ih
    exact ⟨c :: cs, by rw [List.mapM_cons, one]; simp [rest]⟩

theorem candidates_isSome (readable : d.Readable) {omp tmp : List Node} (lowO : omp.length ≤ maxU)
    (lowT : tmp.length ≤ maxU) : ∃ stacked, candidates P A d omp tmp = some stacked := by
  obtain ⟨origins, measuredO⟩ := getEntropy_isSome (A := A) (P := P) readable .o lowO
  obtain ⟨targets, measuredT⟩ := getEntropy_isSome (A := A) (P := P) readable .t lowT
  exact ⟨(origins, targets), by simp [candidates, measuredO, measuredT]⟩

/-- Every stack of the run fits into the arrays for its entropies. -/
structure LowStacks (P : PriorityQueue Node cmp) (A : Arith D) (T : Tuning D) (d : Databases) (args : Args) : Prop where
  scan : args.leakRate = 0 → ∀ db ∈ [d.origin, d.target], ∀ top, topChunks P db args = some top → top.length ≤ maxU
  left : ∀ s₀ n s p c omp tmp, start P A T d args = some s₀ → (mainLoop P A T d args).Tests s₀ n s →
    s.qO.head? = some p → s.qT.head? = some c → leftStacks P d args p c = some (omp, tmp) → omp.length ≤ maxU
  right : ∀ s₀ n s p c omp tmp, start P A T d args = some s₀ → (mainLoop P A T d args).Tests s₀ n s →
    s.qO.head? = some p → s.qT.head? = some c → rightStacks P d args p c = some (omp, tmp) → omp.length ≤ maxU

theorem lowStacks_of_le (init : args.leakRate = 0 → args.init ≤ maxU) (thK : args.thK ≤ maxU) :
    LowStacks P A T d args where
  scan unleaked db _ top scanned := by
    have size := (topChunks_spec scanned).1
    have few := init unleaked
    omega
  left _ _ _ _ _ _ _ _ _ _ _ built := (leftStacks_spec built).height.trans thK
  right _ _ _ _ _ _ _ _ _ _ _ built := (rightStacks_spec built).height.trans thK

theorem iterate_isSome (readable : d.Readable) (positive : 0 < args.thK) (low : LowStacks P A T d args)
    {s₀ s : EntropyState} {n : Nat} (started : start P A T d args = some s₀)
    (tested : (mainLoop P A T d args).Tests s₀ n s) (guarded : (mainLoop P A T d args).guard s = true) :
    ∃ t, iterate P A T d args s = some t := by
  obtain ⟨filledO, filledT⟩ := guard_iff.mp guarded
  obtain ⟨p, restO, qO⟩ := List.exists_cons_of_ne_nil filledO
  obtain ⟨c, restT, qT⟩ := List.exists_cons_of_ne_nil filledT
  have headO : s.qO.head? = some p := by rw [qO, List.head?_cons]
  have headT : s.qT.head? = some c := by rw [qT, List.head?_cons]
  obtain ⟨⟨⟨ompL, tmpL⟩, left⟩, ⟨⟨ompR, tmpR⟩, right⟩⟩ := stacks_isSome (P := P) readable positive p c
  have lowL := low.left s₀ n s p c ompL tmpL started tested headO headT left
  have lowR := low.right s₀ n s p c ompR tmpR started tested headO headT right
  obtain ⟨⟨origins, targets⟩, measuredL⟩ := candidates_isSome (P := P) (A := A) readable
    lowL ((leftStacks_spec left).level ▸ lowL)
  obtain ⟨⟨origins', targets'⟩, measuredR⟩ := candidates_isSome (P := P) (A := A) readable
    lowR ((rightStacks_spec right).level ▸ lowR)
  simp [iterate, qO, qT, leftCandidates, rightCandidates, left, right, measuredL, measuredR]

theorem start_isSome (legible : d.Legible) (init : args.leakRate = 0 → 0 < args.init)
    (low : LowStacks P A T d args) : ∃ s₀, start P A T d args = some s₀ := by
  obtain ⟨s₁, stat⟩ := statDb_isSome args fun _ => legible.counts
  by_cases unleaked : args.leakRate = 0
  · obtain ⟨o, topO⟩ := topChunks_isSome (P := P) (init unleaked) fun e member => legible.counts e (Or.inl member)
    obtain ⟨t, topT⟩ := topChunks_isSome (P := P) (init unleaked) fun e member => legible.counts e (Or.inr member)
    have lowO := low.scan unleaked _ (by simp) o topO
    have lowT := low.scan unleaked _ (by simp) t topT
    obtain ⟨⟨origins, targets⟩, measured⟩ := candidates_isSome (P := P) (A := A) legible.toReadable lowO lowT
    simp [start, stat, scan, unleaked, topCandidates, topO, topT, measured]
  · simp [start, stat, scan, unleaked]

theorem iterations_bounded {s₀ s : EntropyState} {n : Nat} (started : start P A T d args = some s₀)
    (tested : (mainLoop P A T d args).Tests s₀ n s) (guarded : (mainLoop P A T d args).guard s = true) :
    n < iterationBound d s₀.toState := by
  refine iterations_lt (R := rules args) (mainLoop P A T d args) EntropyState.toState ?_ ?_ (start_sound started).1 tested guarded
  · exact fun u v moved => iterate_iteration moved
  · exact fun u guarded => (guard_iff.mp guarded).2

theorem run_finishes (readable : d.Readable) (positive : 0 < args.thK) (low : LowStacks P A T d args)
    {s₀ : EntropyState} (started : start P A T d args = some s₀) :
    ∃ s, (mainLoop P A T d args).run (iterationBound d s₀.toState) s₀ = .finished s := by
  apply Loop.run_defined _ (fun n s tested guarded => iterate_isSome readable positive low started tested guarded)
  apply Loop.run_ends
  exact fun n s tested guarded => iterations_bounded started tested guarded

/-- The queues stay in lockstep, no chunk of either side is matched twice, and no more iterations start
than there are chunks to take. With values that can be read, and heaps that may hold something, the
attack ends. -/
theorem matching_terminates (lawful : A.Lawful) (small : SmallEntropies P A d) :
    (∀ s₀ n s, start P A (tuning A) d args = some s₀ → (mainLoop P A (tuning A) d args).Tests s₀ n s →
      Lockstep s.toState ∧ ((pushedT s.log).map Node.key).Nodup ∧
      ((mainLoop P A (tuning A) d args).guard s = true → n < iterationBound d s₀.toState)) ∧
    (∀ s origins targets flag, Called P A (tuning A) d args s origins targets flag →
      (peakToPair A (tuning A) args.queueLimit flag origins targets s).slots.Nodup) ∧
    (d.Legible → LowStacks P A (tuning A) d args → 0 < args.thK → (args.leakRate = 0 → 0 < args.init) →
      ∃ s₀ s, start P A (tuning A) d args = some s₀ ∧
        (mainLoop P A (tuning A) d args).run (iterationBound d s₀.toState) s₀ = .finished s) := by
  refine ⟨fun s₀ n s started tested => ?_, fun s origins targets flag called => ?_,
    fun legible low positive init => ?_⟩
  · obtain ⟨sound, aligned⟩ := head_sound started tested
    exact ⟨sound.lockstep aligned, sound.distinct, iterations_bounded started tested⟩
  · refine peakToPair_slots _ _ _ _ _ fun t member => ?_
    obtain ⟨n, measured⟩ := called_measured called member
    exact excludes_small lawful (small n t measured).1
  · obtain ⟨s₀, started⟩ := start_isSome legible init low
    obtain ⟨s, finished⟩ := run_finishes legible.toReadable positive low started
    exact ⟨s₀, s, started, finished⟩

def tableEntropy (P : PriorityQueue Node cmp) (A : Arith D) (existing : Option Bytes) : Option D :=
  (insertNeighbours P existing 5000 P.empty).map fun ui => entropy A (P.drain ui).reverse

theorem measure_of_entries (Q : D → Prop) {type : Side} {n : Node} {c : Candidate D}
    (vacant : ∀ x ∈ tableEntropy P A none, Q x)
    (left : ∀ e ∈ (d.left type).entries, ∀ x ∈ tableEntropy P A (some e.2), Q x)
    (right : ∀ e ∈ (d.right type).entries, ∀ x ∈ tableEntropy P A (some e.2), Q x)
    (measured : measure A P d type 5000 n = some c) : Q c.left ∧ Q c.right := by
  have stored : ∀ store : OrderedMap Fp Bytes,
      (∀ e ∈ store.entries, ∀ x ∈ tableEntropy P A (some e.2), Q x) →
      ∀ ui, insertNeighbours P (store.get n.key) 5000 P.empty = some ui → Q (entropy A (P.drain ui).reverse) := by
    intro store every ui filled
    have value : entropy A (P.drain ui).reverse ∈ tableEntropy P A (store.get n.key) := by
      rw [tableEntropy, filled]
      rfl
    cases found : store.get n.key with
    | none =>
      rw [found] at value
      exact vacant _ value
    | some v =>
      rw [found] at value
      exact every (n.key, v) ((store.get_eq_some n.key v).mp found) _ value
  unfold measure at measured
  obtain ⟨leftUi, filledL, measured⟩ := Option.bind_eq_some_iff.mp measured
  obtain ⟨rightUi, filledR, measured⟩ := Option.bind_eq_some_iff.mp measured
  rw [← Option.some.inj measured]
  exact ⟨stored _ left leftUi filledL, stored _ right rightUi filledR⟩

theorem rationals_lawful : rationals.Lawful where
  sub_le_sub a b c le := sub_le_sub_right le c
  sub_ofNat m n le _ := by
    show (m : ℚ) - n = -((n - m : Nat) : ℚ)
    rw [Nat.cast_sub le]
    ring
  one_le_square a le := by
    have low : a ≤ -1 := by simpa [rationals] using le
    show ((1 : Nat) : ℚ) ≤ a * a
    rw [Nat.cast_one]
    nlinarith
  square_nonneg a := by
    show ((0 : Nat) : ℚ) ≤ a * a
    rw [Nat.cast_zero]
    exact mul_self_nonneg a
  le_add a b le := by
    have nonneg : 0 ≤ b := by simpa [rationals] using le
    exact le_add_of_nonneg_right nonneg
  sqrt_le_sqrt a b le := by
    have scaled : a * 10 ^ 12 ≤ b * 10 ^ 12 := by linarith
    have roots := Nat.sqrt_le_sqrt (Int.toNat_le_toNat (Rat.floor_monotone scaled))
    show (((a * 10 ^ 12).floor.toNat.sqrt : Nat) : ℚ) / 10 ^ 6 ≤ ((b * 10 ^ 12).floor.toNat.sqrt : Nat) / 10 ^ 6
    gcongr
  sqrt_one := by decide +kernel

def mixedDatabases : Databases := .ofTraces "12131412" "21413121"

def mixedArgs : Args := ⟨3, 2, 10, 0, 0, fun _ => 0⟩

theorem legible_mixed : mixedDatabases.Legible := by
  have readable : mixedDatabases.Readable := by
    constructor <;> unfold Attack.Readable <;> decide +kernel
  have counts : ∀ db ∈ [mixedDatabases.origin, mixedDatabases.target], ∀ e ∈ db.entries, (nodeOf e).isSome := by
    decide +kernel
  refine ⟨readable, fun e listed => ?_⟩
  rcases listed with member | member
  · exact counts _ (by simp) e member
  · exact counts _ (by simp) e member

theorem small_mixed : SmallEntropies listHeap rationals mixedDatabases := by
  intro n c measured
  refine measure_of_entries (· < rationals.ofNat (maxInt - entropyThreshold)) ?_ ?_ ?_ measured <;>
    decide +kernel

theorem matching_terminates_mixed :
    (∀ s₀ n s, start listHeap rationals (tuning rationals) mixedDatabases mixedArgs = some s₀ →
      (mainLoop listHeap rationals (tuning rationals) mixedDatabases mixedArgs).Tests s₀ n s →
      Lockstep s.toState ∧ ((pushedT s.log).map Node.key).Nodup ∧
      ((mainLoop listHeap rationals (tuning rationals) mixedDatabases mixedArgs).guard s = true →
        n < iterationBound mixedDatabases s₀.toState)) ∧
    (∀ s origins targets flag, Called listHeap rationals (tuning rationals) mixedDatabases mixedArgs s origins targets flag →
      (peakToPair rationals (tuning rationals) mixedArgs.queueLimit flag origins targets s).slots.Nodup) ∧
    ∃ s₀ s, start listHeap rationals (tuning rationals) mixedDatabases mixedArgs = some s₀ ∧
      (mainLoop listHeap rationals (tuning rationals) mixedDatabases mixedArgs).run
        (iterationBound mixedDatabases s₀.toState) s₀ = .finished s := by
  refine (matching_terminates rationals_lawful small_mixed).imp_right fun rest => rest.imp_right fun ends => ?_
  exact ends legible_mixed (lowStacks_of_le (by decide) (by decide)) (by decide) fun _ => by decide

def cutDatabases : Databases := { mixedDatabases with target := mixedDatabases.target.put (Fp.ofBytes [1]) [1, 1, 1] }

/-- With no room in the initial heap, or in the heaps of neighbours, `top()` is called on an empty one;
of a short value, bytes behind its end are read. -/
theorem matching_undefined : SmallEntropies listHeap rationals mixedDatabases ∧
    (∀ fuel s, run listHeap rationals (tuning rationals) mixedDatabases { mixedArgs with init := 0 } fuel ≠ .finished s) ∧
    (∀ fuel s, run listHeap rationals (tuning rationals) mixedDatabases { mixedArgs with thK := 0 } fuel ≠ .finished s) ∧
    ∀ fuel s, run listHeap rationals (tuning rationals) cutDatabases mixedArgs fuel ≠ .finished s := by
  have unscanned : start listHeap rationals (tuning rationals) mixedDatabases { mixedArgs with init := 0 } = none := by
    decide +kernel
  have unread : start listHeap rationals (tuning rationals) cutDatabases mixedArgs = none := by
    decide +kernel
  have entered : ∃ s₀, start listHeap rationals (tuning rationals) mixedDatabases { mixedArgs with thK := 0 } = some s₀ ∧
      (mainLoop listHeap rationals (tuning rationals) mixedDatabases { mixedArgs with thK := 0 }).guard s₀ = true ∧
      iterate listHeap rationals (tuning rationals) mixedDatabases { mixedArgs with thK := 0 } s₀ = none := by
    decide +kernel
  obtain ⟨s₀, started, guarded, stuck⟩ := entered
  refine ⟨small_mixed, fun fuel s => ?_, fun fuel s => ?_, fun fuel s => ?_⟩
  · simp [run, unscanned]
  · rw [run, started]
    exact Loop.run_stuck _ guarded stuck fuel
  · simp [run, unread]

end EncryptedDedup.EntropyAttack
