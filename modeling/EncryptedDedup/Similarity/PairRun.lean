import EncryptedDedup.Similarity.Pair
import Mathlib.Algebra.Order.Group.Abs

/-!
# What `pair` pairs

Every ciphertext slice is paired with the plaintext slice that is nearest to it by entropy among those that
the loop visits.
-/

namespace EncryptedDedup.Pair

variable {K : Type} {oriVec tarVec : List (SliceNode K)} {r : Nat} {s s' : State K} {tar : SliceNode K × Nat}

theorem less_irrefl (n : SliceNode K) : n.less n = false := by
  unfold SliceNode.less
  simp

theorem less_trans (n m l : SliceNode K) (first : n.less m = true) (second : m.less l = true) : n.less l = true := by
  unfold SliceNode.less at first second ⊢
  simp only [Bool.or_eq_true, Bool.and_eq_true, decide_eq_true_iff] at first second ⊢
  rcases first with below | ⟨same, below⟩
  · rcases second with below' | ⟨same', -⟩
    · exact .inl (below.trans below')
    · exact .inl (same' ▸ below)
  · rcases second with below' | ⟨same', below'⟩
    · exact .inl (same ▸ below')
    · exact .inr ⟨same.trans same', below.trans below'⟩

theorem mem_candidates {ori : SliceNode K × Nat} {p : Nat} :
    ori ∈ candidates p r oriVec ↔ oriVec[ori.2]? = some ori.1 ∧ Visited p r ori.2 := by
  unfold candidates
  rw [List.mem_filter, decide_eq_true_iff, List.mem_zipIdx_iff_getElem?]

theorem mem_targets {u : Nat} (member : tar ∈ targets oriVec tarVec u) :
    tar.2 < min (min oriVec.length tarVec.length) u ∧ tarVec[tar.2]? = some tar.1 := by
  unfold targets at member
  obtain ⟨i, below, here⟩ := List.getElem_of_mem member
  rw [List.length_take, List.length_zipIdx] at below
  rw [List.getElem_take, List.getElem_zipIdx] at here
  subst here
  refine ⟨?_, ?_⟩
  · dsimp only
    omega
  · dsimp only
    rw [Nat.zero_add]
    exact List.getElem?_eq_getElem _

def State.used (s : State K) : List Nat := s.chosen.map Prod.snd

section
variable [Field K]

/-- The plaintext slices are as they were, but the paired ones have no entropy of their own any more. -/
def Marked (oriVec : List (SliceNode K)) (s : State K) : Prop :=
  ∀ q, s.oriVec[q]? = oriVec[q]?.map fun ori => if q ∈ s.used then { ori with sliceEntropy := maximumEntropy } else ori

theorem marked_init (oriVec : List (SliceNode K)) : Marked oriVec (.init oriVec) := by
  intro q
  have none : q ∉ (State.init oriVec).used := List.not_mem_nil
  simp only [if_neg none, Option.map_id']
  rfl

theorem Marked.get (marked : Marked oriVec s) {q : Nat} {ori : SliceNode K} (here : s.oriVec[q]? = some ori) :
    (q ∉ s.used ∧ oriVec[q]? = some ori) ∨ (q ∈ s.used ∧ ori.sliceEntropy = maximumEntropy) := by
  rw [marked q] at here
  obtain ⟨old, known, rfl⟩ := Option.map_eq_some_iff.mp here
  by_cases used : q ∈ s.used
  · exact .inr ⟨used, by rw [if_pos used]⟩
  · exact .inl ⟨used, by rw [if_neg used, known]⟩

theorem Marked.get_unused (marked : Marked oriVec s) {q : Nat} (unused : q ∉ s.used) : s.oriVec[q]? = oriVec[q]? := by
  rw [marked q]
  simp [unused]

end

variable [Field K] [LinearOrder K] {t : K}

/-- An entropy is not negative, and below the sentinel by more than the threshold. -/
def Bounded (t : K) (n : SliceNode K) : Prop := 0 ≤ n.sliceEntropy ∧ n.sliceEntropy < maximumEntropy - t

@[simp] theorem add_chosen (s : State K) (minDiff : K) (tar min : SliceNode K) (p q : Nat) :
    (s.add minDiff tar min p q).chosen = s.chosen ++ [(p, q)] := by
  unfold State.add
  dsimp only
  split <;> rfl

@[simp] theorem add_oriVec (s : State K) (minDiff : K) (tar min : SliceNode K) (p q : Nat) :
    (s.add minDiff tar min p q).oriVec = s.oriVec.set q { min with sliceEntropy := maximumEntropy } := by
  unfold State.add
  dsimp only
  split <;> rfl

theorem Marked.add (marked : Marked oriVec s) {q : Nat} {ori : SliceNode K} (unused : q ∉ s.used)
    (here : s.oriVec[q]? = some ori) (minDiff : K) (tar : SliceNode K) (p : Nat) :
    Marked oriVec (s.add minDiff tar ori p q) := by
  intro i
  have used : (s.add minDiff tar ori p q).used = s.used ++ [q] := by
    unfold State.used
    rw [add_chosen, List.map_append, List.map_singleton]
  have old := marked.get_unused unused
  rw [here] at old
  rw [add_oriVec, used]
  by_cases same : q = i
  · subst same
    rw [List.getElem?_set_self (List.getElem?_eq_some_iff.mp here).1, ← old, Option.map_some,
      if_pos (List.mem_append_right _ List.mem_cons_self)]
  · have other : i ≠ q := Ne.symm same
    rw [List.getElem?_set_ne same, marked i]
    simp [other]

/-! ### One turn -/

/-- The ciphertext slice is paired with an unpaired slice of a visited rank whose entropy is nearest, and if it is
paired with none, none is within `t`. -/
def Choice (oriVec : List (SliceNode K)) (t : K) (r : Nat) (tar : SliceNode K × Nat) (s s' : State K) : Prop :=
  (∃ q ori, s'.chosen = s.chosen ++ [(tar.2, q)] ∧ oriVec[q]? = some ori ∧ q ∉ s.used ∧ Visited tar.2 r q ∧
    |ori.sliceEntropy - tar.1.sliceEntropy| < t ∧
    ∀ q' ori', oriVec[q']? = some ori' → q' ∉ s.used → Visited tar.2 r q' →
      |ori'.sliceEntropy - tar.1.sliceEntropy| < t →
      |ori.sliceEntropy - tar.1.sliceEntropy| ≤ |ori'.sliceEntropy - tar.1.sliceEntropy|) ∨
  (s' = s ∧ ∀ q' ori', oriVec[q']? = some ori' → q' ∉ s.used → Visited tar.2 r q' →
    ¬ |ori'.sliceEntropy - tar.1.sliceEntropy| < t)

section
variable [IsStrictOrderedRing K]

theorem difference_eq (tar ori : SliceNode K) : difference tar ori = |ori.sliceEntropy - tar.sliceEntropy| := by
  unfold difference
  dsimp only
  split
  · rename_i negative
    rw [abs_of_neg negative]
  · rename_i nonneg
    rw [abs_of_nonneg (not_lt.mp nonneg)]

/-- The sentinel is not within `t` of an entropy. -/
theorem far_of_marked {tar ori : SliceNode K} (bounded : Bounded t tar) (overwritten : ori.sliceEntropy = maximumEntropy) :
    ¬ |ori.sliceEntropy - tar.sliceEntropy| < t := by
  have apart : t < maximumEntropy - tar.sliceEntropy := by
    have below := bounded.2
    linarith
  rw [overwritten, not_lt]
  exact apart.le.trans (le_abs_self _)

theorem pairSlice_cases (marked : Marked oriVec s) (bounded : Bounded t tar.1) :
    (∃ q ori, pairSlice t r s tar = some (s.add (difference tar.1 ori) tar.1 ori tar.2 q) ∧
      s.oriVec[q]? = some ori ∧ oriVec[q]? = some ori ∧ q ∉ s.used ∧
      Choice oriVec t r tar s (s.add (difference tar.1 ori) tar.1 ori tar.2 q)) ∨
    (pairSlice t r s tar = some s ∧ Choice oriVec t r tar s s) := by
  have small : t < maximumEntropy := by
    have both := bounded
    unfold Bounded at both
    linarith
  have visible : ∀ q' ori', oriVec[q']? = some ori' → q' ∉ s.used → Visited tar.2 r q' →
      (ori', q') ∈ candidates tar.2 r s.oriVec := by
    intro q' ori' known unused visited
    exact mem_candidates.mpr ⟨(marked.get_unused unused).trans known, visited⟩
  unfold pairSlice closest
  rcases @nearest_spec _ _ _ (fun ori : SliceNode K × Nat => decide (difference tar.1 ori.1 < t))
      (fun ori => difference tar.1 ori.1) maximumEntropy (candidates tar.2 r s.oriVec) with
    ⟨⟨ori, q⟩, best, known, fits, -, least⟩ | ⟨best, least⟩
  · obtain ⟨here, visited⟩ := mem_candidates.mp known
    have within : difference tar.1 ori < t := of_decide_eq_true fits
    rw [difference_eq] at within
    have unused : q ∉ s.used ∧ oriVec[q]? = some ori := by
      rcases marked.get here with fresh | ⟨-, overwritten⟩
      · exact fresh
      · exact absurd within (far_of_marked bounded overwritten)
    refine .inl ⟨q, ori, ?_, here, unused.2, unused.1, .inl ?_⟩
    · rw [best]
      dsimp only
      rw [if_pos (by rwa [difference_eq])]
      rfl
    · refine ⟨q, ori, add_chosen .., unused.2, unused.1, visited, within, fun q' ori' known' unused' visited' near => ?_⟩
      have closer : difference tar.1 ori ≤ difference tar.1 ori' := by
        apply least (ori', q') (visible q' ori' known' unused' visited')
        rwa [decide_eq_true_iff, difference_eq]
      rwa [difference_eq, difference_eq] at closer
  · refine .inr ⟨?_, .inr ⟨rfl, fun q' ori' known' unused' visited' near => ?_⟩⟩
    · rw [best]
      dsimp only
      rw [if_neg (not_lt.mpr small.le)]
    · have far : maximumEntropy ≤ difference tar.1 ori' := by
        apply least (ori', q') (visible q' ori' known' unused' visited')
        rwa [decide_eq_true_iff, difference_eq]
      rw [difference_eq] at far
      exact absurd (far.trans_lt near) (not_lt.mpr small.le)

theorem pairSlice_choice (marked : Marked oriVec s) (bounded : Bounded t tar.1) :
    ∃ s', pairSlice t r s tar = some s' ∧ Marked oriVec s' ∧ Choice oriVec t r tar s s' := by
  rcases pairSlice_cases (r := r) marked bounded with ⟨q, ori, ran, here, -, unused, choice⟩ | ⟨ran, choice⟩
  · exact ⟨_, ran, marked.add unused here _ _ _, choice⟩
  · exact ⟨s, ran, marked, choice⟩

/-! ### Runs -/

theorem foldlM_marked {done : List (SliceNode K × Nat)} (bounded : ∀ tar ∈ done, Bounded t tar.1)
    (marked : Marked oriVec s) : ∃ s', done.foldlM (pairSlice t r) s = some s' ∧ Marked oriVec s' := by
  induction done generalizing s with
  | nil => exact ⟨s, rfl, marked⟩
  | cons tar done ih =>
    obtain ⟨here, later⟩ := List.forall_mem_cons.mp bounded
    obtain ⟨s₁, ran, kept, -⟩ := pairSlice_choice (r := r) marked here
    obtain ⟨s', finished, all⟩ := ih later kept
    refine ⟨s', ?_, all⟩
    rw [List.foldlM_cons, ran]
    exact finished

end

def Turn (oriVec tarVec : List (SliceNode K)) (u r : Nat) (t : K) (tar : SliceNode K × Nat) (s s' : State K) : Prop :=
  ∃ done rest, targets oriVec tarVec u = done ++ tar :: rest ∧ done.foldlM (pairSlice t r) (.init oriVec) = some s ∧
    pairSlice t r s tar = some s'

def Near (r p q : Nat) : Prop := p ≤ q + r ∧ q ≤ p + r

/-- In every turn the unpaired slices that are visited are those whose rank differs by at most `r`, and the nearest
of them by entropy is chosen. -/
def RankPairs (P : PriorityQueue (SliceNode K) SliceNode.less) (pSlice cSlice : P.Heap) (u r : Nat) (t : K) : Prop :=
  (∃ final, pair P pSlice cSlice u r t = some final) ∧
    ∀ tar s s', Turn (P.drain pSlice) (P.drain cSlice) u r t tar s s' →
      (∀ q < (P.drain pSlice).length, q ∉ s.used → (Visited tar.2 r q ↔ Near r tar.2 q)) ∧
        Choice (P.drain pSlice) t r tar s s'

/-- Every turn visits all the slices that are not paired. -/
def Covers (oriVec tarVec : List (SliceNode K)) (u r : Nat) (t : K) : Prop :=
  ∀ tar s s', Turn oriVec tarVec u r t tar s s' → ∀ q < oriVec.length, q ∉ s.used → Visited tar.2 r q

theorem Turn.rank {u : Nat} (turn : Turn oriVec tarVec u r t tar s s') : tar.2 < oriVec.length := by
  obtain ⟨done, rest, split, -, -⟩ := turn
  have member : tar ∈ targets oriVec tarVec u := split ▸ List.mem_append_right done List.mem_cons_self
  have below := (mem_targets member).1
  omega

theorem length_le_of_visited {n : Nat} (filled : 0 < n) (visited : ∀ q < n, Visited 0 r q) : n ≤ r := by
  have start := (visited 0 filled).1
  have last := (visited (n - 1) (by omega)).2
  have bound : range 0 r ≤ r := by
    unfold range
    split
    · rw [Nat.zero_add]
      exact Nat.mod_le r _
    · have none : r = 0 := by omega
      rw [none]
      decide
  omega

theorem length_le_of_near {n : Nat} (exact_ : ∀ q < n, Visited 0 r q ↔ Near r 0 q) : n ≤ r := by
  by_contra more
  have all : ∀ q < r + 1, Visited 0 r q := by
    intro q below
    exact (exact_ q (by omega)).mpr ⟨Nat.zero_le _, by omega⟩
  have bound := length_le_of_visited (Nat.succ_pos r) all
  omega

theorem visited_of_small {n p q : Nat} (small : r < 2 ^ 31) (covered : n ≤ r) (rank : p < n) (below : q < n) :
    Visited p r q := by
  have back : skip p r = 0 := by
    unfold skip
    rw [Int.bmod_def]
    split <;> omega
  unfold Visited range
  rw [back, if_pos (by omega)]
  omega

section
variable [IsStrictOrderedRing K] {u : Nat}

theorem Turn.first (bounded : ∀ n ∈ tarVec, Bounded t n) (turn : Turn oriVec tarVec u r t tar s s') :
    ∃ tar₀ s₁, tar₀.2 = 0 ∧ Turn oriVec tarVec u r t tar₀ (.init oriVec) s₁ := by
  obtain ⟨done, rest, split, -, -⟩ := turn
  have filled : 0 < (targets oriVec tarVec u).length := by
    rw [split, List.length_append, List.length_cons]
    omega
  obtain ⟨tar₀, more, whole⟩ := List.exists_cons_of_length_pos filled
  have known := (mem_targets (whole ▸ List.mem_cons_self)).2
  obtain ⟨s₁, ran, -⟩ := pairSlice_choice (r := r) (marked_init oriVec) (bounded tar₀.1 (List.mem_of_getElem? known))
  refine ⟨tar₀, s₁, ?_, [], more, whole, rfl, ran⟩
  have head : (targets oriVec tarVec u)[0]? = some tar₀ := by rw [whole]; rfl
  unfold targets at head
  obtain ⟨below, here⟩ := List.getElem?_eq_some_iff.mp head
  rw [List.getElem_take, List.getElem_zipIdx] at here
  rw [← here]

theorem covers_iff (bounded : ∀ n ∈ tarVec, Bounded t n) (small : r < 2 ^ 31) :
    Covers oriVec tarVec u r t ↔ min (min oriVec.length tarVec.length) u = 0 ∨ oriVec.length ≤ r := by
  constructor
  · intro covers
    by_cases none : min (min oriVec.length tarVec.length) u = 0
    · exact .inl none
    · have filled : 0 < (targets oriVec tarVec u).length := by
        unfold targets
        rw [List.length_take, List.length_zipIdx]
        omega
      obtain ⟨tar, rest, whole⟩ := List.exists_cons_of_length_pos filled
      have known := (mem_targets (whole ▸ List.mem_cons_self)).2
      obtain ⟨s₁, ran, -⟩ := pairSlice_choice (r := r) (marked_init oriVec) (bounded tar.1 (List.mem_of_getElem? known))
      obtain ⟨tar₀, s₂, rank, first⟩ := Turn.first bounded ⟨[], rest, whole, rfl, ran⟩
      refine .inr (length_le_of_visited (by omega) fun q below => ?_)
      have visited := covers tar₀ _ s₂ first q below List.not_mem_nil
      rwa [rank] at visited
  · rintro (none | covered) tar s s' turn q below -
    · obtain ⟨done, rest, split, -, -⟩ := turn
      have member : tar ∈ targets oriVec tarVec u := split ▸ List.mem_append_right done List.mem_cons_self
      have rank := (mem_targets member).1
      omega
    · exact visited_of_small small covered turn.rank below

variable {P : PriorityQueue (SliceNode K) SliceNode.less} {pSlice cSlice : P.Heap}

/-- `pair` considers the slices within the radius exactly if every turn visits all the unpaired slices, which it does,
for a radius that is an `int`, exactly if there is nothing to pair or the radius covers all the slices: the
loop ends before rank `p + r`. -/
theorem rankPairs_iff (bounded : ∀ n ∈ P.contents cSlice, Bounded t n) :
    (RankPairs P pSlice cSlice u r t ↔ Covers (P.drain pSlice) (P.drain cSlice) u r t) ∧
      (r < 2 ^ 31 → (Covers (P.drain pSlice) (P.drain cSlice) u r t ↔
        min (min (P.drain pSlice).length (P.drain cSlice).length) u = 0 ∨ (P.drain pSlice).length ≤ r)) := by
  have bounded' : ∀ n ∈ P.drain cSlice, Bounded t n := fun n member => bounded n (P.mem_drain.mp member)
  have targeted : ∀ tar ∈ targets (P.drain pSlice) (P.drain cSlice) u, Bounded t tar.1 := fun tar member =>
    bounded' tar.1 (List.mem_of_getElem? (mem_targets member).2)
  refine ⟨⟨?_, ?_⟩, covers_iff bounded'⟩
  · rintro ⟨-, turns⟩ tar s s' turn q below unused
    obtain ⟨tar₀, s₁, rank, first⟩ := turn.first bounded'
    have covered : (P.drain pSlice).length ≤ r := by
      refine length_le_of_near fun q below => ?_
      have exact_ := (turns tar₀ _ s₁ first).1 q below List.not_mem_nil
      rwa [rank] at exact_
    have rank' := turn.rank
    exact ((turns tar s s' turn).1 q below unused).mpr ⟨by omega, by omega⟩
  · intro covers
    obtain ⟨final, ran, -⟩ := foldlM_marked (r := r) targeted (marked_init (P.drain pSlice))
    refine ⟨⟨final, ran⟩, fun tar s s' turn => ⟨fun q below unused => ?_, ?_⟩⟩
    · have covered : (P.drain pSlice).length ≤ r := by
        obtain ⟨tar₀, s₁, rank, first⟩ := turn.first bounded'
        refine length_le_of_visited (by omega) fun q below => ?_
        have visited := covers tar₀ _ s₁ first q below List.not_mem_nil
        rwa [rank] at visited
      have rank' := turn.rank
      exact iff_of_true (covers tar s s' turn q below unused) ⟨by omega, by omega⟩
    · obtain ⟨done, rest, split, before, ran⟩ := turn
      rw [split] at targeted
      obtain ⟨s₁, ran₁, marked⟩ := foldlM_marked (r := r)
        (fun tar member => targeted tar (List.mem_append_left _ member)) (marked_init (P.drain pSlice))
      obtain rfl := Option.some.inj (before.symm.trans ran₁)
      obtain ⟨s₂, ran₂, -, choice⟩ := pairSlice_choice (r := r) marked
        (targeted tar (List.mem_append_right _ List.mem_cons_self))
      obtain rfl := Option.some.inj (ran.symm.trans ran₂)
      exact choice

end

def sliceQueue : PriorityQueue (SliceNode ℚ) SliceNode.less :=
  listQueue SliceNode.less less_irrefl less_trans

def slice (key : UInt8) (size : Int) (entropy : ℚ) : SliceNode ℚ := ⟨[key], size, u64 0, entropy, .empty, 0⟩

theorem rankPairs_iff_three :
    (RankPairs sliceQueue [slice 1 3 5, slice 2 2 1] [slice 7 2 1] 1 2 (1 / 5) ↔
      Covers (sliceQueue.drain [slice 1 3 5, slice 2 2 1]) (sliceQueue.drain [slice 7 2 1]) 1 2 (1 / 5)) ∧
    (2 < 2 ^ 31 → (Covers (sliceQueue.drain [slice 1 3 5, slice 2 2 1]) (sliceQueue.drain [slice 7 2 1]) 1 2 (1 / 5) ↔
      min (min (sliceQueue.drain [slice 1 3 5, slice 2 2 1]).length (sliceQueue.drain [slice 7 2 1]).length) 1 = 0 ∨
        (sliceQueue.drain [slice 1 3 5, slice 2 2 1]).length ≤ 2)) := by
  apply rankPairs_iff
  intro n member
  obtain rfl : n = slice 7 2 1 := Multiset.mem_singleton.mp member
  unfold Bounded
  decide +kernel

/-- The slice of rank 1 has the entropy of the only ciphertext slice; with `r` = 1 it is not visited, and nothing
is paired. -/
theorem rankPairs_short : (pair sliceQueue [slice 1 3 5, slice 2 2 1] [slice 7 2 1] 1 1 (1 / 5)).map State.chosen = some [] ∧
    ¬ RankPairs sliceQueue [slice 1 3 5, slice 2 2 1] [slice 7 2 1] 1 1 (1 / 5) := by
  refine ⟨by decide +kernel, ?_⟩
  rintro ⟨-, turns⟩
  have ranks : targets (sliceQueue.drain [slice 1 3 5, slice 2 2 1]) (sliceQueue.drain [slice 7 2 1]) 1 =
      [] ++ (slice 7 2 1, 0) :: [] := by decide +kernel
  obtain ⟨s', ran⟩ : ∃ s', pairSlice (1 / 5) 1 (.init (sliceQueue.drain [slice 1 3 5, slice 2 2 1])) (slice 7 2 1, 0) =
      some s' := Option.isSome_iff_exists.mp (by decide +kernel)
  have considered := (turns _ _ s' ⟨[], [], ranks, rfl, ran⟩).1 1 (by decide +kernel) List.not_mem_nil
  have missed : ¬ Visited 0 1 1 := by decide
  exact missed (considered.mpr ⟨by decide, by decide⟩)

end EncryptedDedup.Pair
