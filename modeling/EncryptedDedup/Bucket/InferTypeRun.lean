import EncryptedDedup.Bucket.InferType

/-!
# Runs of the typed `inferTest`

What a bucket leaves in the queues, and when the next bucket finds them empty.
-/

namespace EncryptedDedup.InferChunksType

variable {P : PriorityQueue FC cmp} {d : Databases} {md5 : Bytes → Fp} {input : Bytes} {typeHashStr : Fp}

/-! ### Loading a bucket -/

def candidates (fcDb : OrderedMap Bytes Bytes) (typeHashStr : Fp) (tempFpSet : Bytes) : List FC :=
  (cut fpSize tempFpSet).filterMap fun part =>
    (fcDb.get (part ++ typeHashStr.bytes)).map fun count => ⟨part ++ typeHashStr.bytes, toU64 (atoi count)⟩

def Whole (tempFpSet : Bytes) : Prop := ∀ part ∈ cut fpSize tempFpSet, part.length = fpSize

instance instDecidableWhole (tempFpSet : Bytes) : Decidable (Whole tempFpSet) :=
  inferInstanceAs (Decidable (∀ part ∈ cut fpSize tempFpSet, part.length = fpSize))

theorem length_key (part : Bytes) (typeHashStr : Fp) :
    (part ++ typeHashStr.bytes).length = 12 ↔ part.length = fpSize := by
  rw [List.length_append, typeHashStr.size_eq, fpSize]
  omega

variable (typeHashStr) in
theorem load_whole (fcDb : OrderedMap Bytes Bytes) {tempFpSet : Bytes} (whole : Whole tempFpSet) (que : P.Heap) :
    ∃ que', load P fcDb typeHashStr tempFpSet que = some que' ∧
      P.contents que' = (candidates fcDb typeHashStr tempFpSet : Multiset FC) + P.contents que := by
  unfold load candidates
  unfold Whole at whole
  generalize cut fpSize tempFpSet = parts at whole ⊢
  induction parts generalizing que with
  | nil => exact ⟨que, rfl, by simp⟩
  | cons part parts ih =>
    have long : ¬ (part ++ typeHashStr.bytes).length ≠ 12 :=
      not_not_intro ((length_key part typeHashStr).mpr (whole part List.mem_cons_self))
    have tail := fun que => ih que fun p member => whole p (List.mem_cons_of_mem _ member)
    rw [List.foldlM_cons, loadPart, if_neg long]
    cases found : fcDb.get (part ++ typeHashStr.bytes) with
    | none =>
      rw [List.filterMap_cons_none (by rw [found]; rfl)]
      exact tail que
    | some count =>
      obtain ⟨que', loaded, held⟩ := tail (P.push que ⟨part ++ typeHashStr.bytes, toU64 (atoi count)⟩)
      refine ⟨que', loaded, ?_⟩
      rw [List.filterMap_cons_some (by rw [found]; rfl), held, P.contents_push, ← Multiset.cons_coe,
        Multiset.add_cons, Multiset.cons_add]

theorem load_some {fcDb : OrderedMap Bytes Bytes} {tempFpSet : Bytes} {que que' : P.Heap}
    (loaded : load P fcDb typeHashStr tempFpSet que = some que') : Whole tempFpSet := by
  unfold load at loaded
  unfold Whole
  generalize cut fpSize tempFpSet = parts at loaded ⊢
  induction parts generalizing que with
  | nil => exact fun _ member => absurd member List.not_mem_nil
  | cons part parts ih =>
    rw [List.foldlM_cons] at loaded
    obtain ⟨que₁, first, rest⟩ := Option.bind_eq_some_iff.mp loaded
    have long : (part ++ typeHashStr.bytes).length = 12 := by
      by_contra short
      rw [loadPart, if_pos short] at first
      cases first
    exact List.forall_mem_cons.mpr ⟨(length_key part typeHashStr).mp long, ih rest⟩

theorem mem_candidates {fcDb : OrderedMap Bytes Bytes} {tempFpSet : Bytes} {f : FC}
    (member : f ∈ candidates fcDb typeHashStr tempFpSet) (whole : Whole tempFpSet) :
    f.key.take fpSize ∈ cut fpSize tempFpSet := by
  obtain ⟨part, inside, made⟩ := List.mem_filterMap.mp member
  obtain ⟨count, -, rfl⟩ := Option.map_eq_some_iff.mp made
  rw [List.take_left' (whole part inside)]
  exact inside

/-! ### Matching -/

theorem infer_frame (s : State P) (m c : FC) :
    (s.infer md5 m c).mQue = P.pop s.mQue ∧ (s.infer md5 m c).cQue = P.pop s.cQue ∧
    (s.infer md5 m c).buckets = s.buckets := by
  unfold State.infer
  dsimp only
  split <;> exact ⟨rfl, rfl, rfl⟩

variable (md5) in
theorem matchTop_sizes (n : Nat) {s : State P} (enoughM : n ≤ P.size s.mQue) (enoughC : n ≤ P.size s.cQue) :
    ∃ s' pairs, matchTop md5 n s = some (s', pairs) ∧ P.size s'.mQue + n = P.size s.mQue ∧
      P.size s'.cQue + n = P.size s.cQue ∧ s'.buckets = s.buckets ∧
      ∀ m c, (m, c) ∈ pairs → m ∈ P.contents s.mQue ∧ c ∈ P.contents s.cQue := by
  induction n generalizing s with
  | zero => exact ⟨s, [], rfl, rfl, rfl, rfl, fun _ _ member => absurd member List.not_mem_nil⟩
  | succ n ih =>
    obtain ⟨m, firstM⟩ := P.top_isSome (h := s.mQue) (by omega)
    obtain ⟨c, firstC⟩ := P.top_isSome (h := s.cQue) (by omega)
    have shorterM := P.size_pop firstM
    have shorterC := P.size_pop firstC
    obtain ⟨queM, queC, before⟩ : _ ∧ _ ∧ (s.infer md5 m c).buckets = _ := infer_frame s m c
    obtain ⟨s', pairs, rest, leftM, leftC, same, taken⟩ :=
      ih (s := s.infer md5 m c) (by rw [queM]; omega) (by rw [queC]; omega)
    rw [queM] at leftM
    rw [queC] at leftC
    refine ⟨s', (m, c) :: pairs, ?_, by omega, by omega, same.trans before, ?_⟩
    · simp only [matchTop, firstM, firstC, rest, Option.bind_eq_bind, Option.bind_some]
    · intro m' c' member
      rcases List.mem_cons.mp member with here | later
      · cases here
        exact ⟨P.top_mem firstM, P.top_mem firstC⟩
      · obtain ⟨inM, inC⟩ := taken m' c' later
        rw [queM] at inM
        rw [queC] at inC
        rw [← P.contents_pop _ _ firstM, ← P.contents_pop _ _ firstC]
        exact ⟨Multiset.mem_cons_of_mem inM, Multiset.mem_cons_of_mem inC⟩

/-! ### One bucket -/

/-- The bucket that turn `k` of the loop loads, if it is in both size databases. -/
def bucketAt (d : Databases) (k : Nat) : Option (Bytes × Bytes × Bytes) := do
  let e ← d.csfDb.entries[k]?
  let mTempFpSet ← d.msfDb.get e.1
  some (e.1, e.2, mTempFpSet)

theorem bucketAt_eq {k : Nat} {size cSet mSet : Bytes} (here : bucketAt d k = some (size, cSet, mSet)) :
    d.csfDb.entries[k]? = some (size, cSet) ∧ d.msfDb.get size = some mSet := by
  obtain ⟨⟨_, _⟩, entry, rest⟩ := Option.bind_eq_some_iff.mp here
  obtain ⟨_, other, same⟩ := Option.bind_eq_some_iff.mp rest
  cases same
  exact ⟨entry, other⟩

theorem inferBucket_skip (s : State P) {e : Bytes × Bytes} (missing : d.msfDb.get e.1 = none) :
    inferBucket d md5 typeHashStr s e = some s := by
  rw [inferBucket, missing]

structure Turn (d : Databases) (typeHashStr : Fp) (size cSet mSet : Bytes) (s s' : State P) : Prop where
  cQue : P.size s'.cQue + min (P.size s.mQue + (candidates d.mfcDb typeHashStr mSet).length)
    (P.size s.cQue + (candidates d.cfcDb typeHashStr cSet).length) =
      P.size s.cQue + (candidates d.cfcDb typeHashStr cSet).length
  mQue : P.size s'.mQue + min (P.size s.mQue + (candidates d.mfcDb typeHashStr mSet).length)
    (P.size s.cQue + (candidates d.cfcDb typeHashStr cSet).length) =
      P.size s.mQue + (candidates d.mfcDb typeHashStr mSet).length
  buckets : ∃ pairs, s'.buckets = s.buckets ++ [(size, pairs)] ∧ ∀ m c, (m, c) ∈ pairs →
    m ∈ (candidates d.mfcDb typeHashStr mSet : Multiset FC) + P.contents s.mQue ∧
    c ∈ (candidates d.cfcDb typeHashStr cSet : Multiset FC) + P.contents s.cQue

variable (md5 typeHashStr) in
theorem inferBucket_turn (s : State P) {size cSet mSet : Bytes} (present : d.msfDb.get size = some mSet)
    (wholeC : Whole cSet) (wholeM : Whole mSet) :
    ∃ s', inferBucket d md5 typeHashStr s (size, cSet) = some s' ∧ Turn d typeHashStr size cSet mSet s s' := by
  obtain ⟨cQue, loadC, heldC⟩ := load_whole typeHashStr d.cfcDb wholeC s.cQue
  obtain ⟨mQue, loadM, heldM⟩ := load_whole typeHashStr d.mfcDb wholeM s.mQue
  have sizeC : P.size cQue = P.size s.cQue + (candidates d.cfcDb typeHashStr cSet).length := by
    rw [PriorityQueue.size, heldC, Multiset.card_add, Multiset.coe_card, Nat.add_comm, PriorityQueue.size]
  have sizeM : P.size mQue = P.size s.mQue + (candidates d.mfcDb typeHashStr mSet).length := by
    rw [PriorityQueue.size, heldM, Multiset.card_add, Multiset.coe_card, Nat.add_comm, PriorityQueue.size]
  have smaller : (if P.size mQue ≤ P.size cQue then P.size mQue else P.size cQue) =
      min (P.size mQue) (P.size cQue) := Nat.min_def.symm
  obtain ⟨s', pairs, matched, leftM, leftC, same, taken⟩ :=
    matchTop_sizes md5 (min (P.size mQue) (P.size cQue)) (s := { s with cQue := cQue, mQue := mQue })
      (Nat.min_le_left _ _) (Nat.min_le_right _ _)
  dsimp only at leftM leftC same taken
  refine ⟨{ s' with buckets := s'.buckets ++ [(size, pairs)] }, ?_, ?_, ?_, pairs, ?_, ?_⟩
  · simp only [inferBucket, present, loadC, loadM, smaller, matched, Option.bind_eq_bind, Option.bind_some]
  · rw [sizeC, sizeM] at leftC
    exact leftC
  · rw [sizeC, sizeM] at leftM
    exact leftM
  · rw [same]
  · rw [← heldM, ← heldC]
    exact taken

theorem inferBucket_some {s s' : State P} {size cSet mSet : Bytes} (present : d.msfDb.get size = some mSet)
    (finished : inferBucket d md5 typeHashStr s (size, cSet) = some s') : Whole cSet ∧ Whole mSet := by
  simp only [inferBucket, present] at finished
  obtain ⟨cQue, loadC, rest⟩ := Option.bind_eq_some_iff.mp finished
  obtain ⟨mQue, loadM, -⟩ := Option.bind_eq_some_iff.mp rest
  exact ⟨load_some loadC, load_some loadM⟩

/-! ### Whole runs -/

theorem inferTo_zero (hash : typeHash md5 input = some typeHashStr) :
    inferTo P d md5 input 0 = some (State.init P) := by
  rw [inferTo, hash]
  rfl

theorem inferTo_succ (hash : typeHash md5 input = some typeHashStr) {k : Nat} {e : Bytes × Bytes}
    (entry : d.csfDb.entries[k]? = some e) :
    inferTo P d md5 input (k + 1) = (inferTo P d md5 input k).bind fun s => inferBucket d md5 typeHashStr s e := by
  simp only [inferTo, hash, List.take_add_one, entry, Option.toList_some, List.foldlM_append, List.foldlM_cons,
    List.foldlM_nil, Option.bind_eq_bind, Option.bind_some]
  congr 1
  funext s
  cases inferBucket d md5 typeHashStr s e <;> rfl

theorem inferTo_past (hash : typeHash md5 input = some typeHashStr) {k : Nat}
    (past : d.csfDb.entries[k]? = none) : inferTo P d md5 input (k + 1) = inferTo P d md5 input k := by
  simp only [inferTo, hash, List.take_add_one, past, Option.toList_none, List.append_nil]

theorem inferTo_skip (hash : typeHash md5 input = some typeHashStr) {k : Nat} (missing : bucketAt d k = none) :
    inferTo P d md5 input (k + 1) = inferTo P d md5 input k := by
  cases entry : d.csfDb.entries[k]? with
  | none => exact inferTo_past hash entry
  | some e =>
    have other : d.msfDb.get e.1 = none := by
      rw [bucketAt, entry] at missing
      cases found : d.msfDb.get e.1 with
      | none => rfl
      | some mSet => simp [found] at missing
    rw [inferTo_succ hash entry]
    cases inferTo P d md5 input k with
    | none => rfl
    | some s => exact inferBucket_skip s other

/-- `cQue` and `mQue` are empty whenever the loading of a bucket starts. -/
def QueuesEmptyAtLoading (P : PriorityQueue FC cmp) (d : Databases) (md5 : Bytes → Fp) (input : Bytes) : Prop :=
  ∀ k s, inferTo P d md5 input k = some s → (bucketAt d k).isSome →
    P.contents s.cQue = 0 ∧ P.contents s.mQue = 0

/-- Every pair that was compared in a bucket consists of two chunks of the bucket. -/
def PairsWithinBuckets (P : PriorityQueue FC cmp) (d : Databases) (md5 : Bytes → Fp) (input : Bytes) : Prop :=
  ∀ k s, inferTo P d md5 input k = some s → ∀ size pairs, (size, pairs) ∈ s.buckets →
    ∃ cSet mSet, d.csfDb.get size = some cSet ∧ d.msfDb.get size = some mSet ∧
      ∀ m c, (m, c) ∈ pairs → m.key.take fpSize ∈ cut fpSize mSet ∧ c.key.take fpSize ∈ cut fpSize cSet

def Balanced (d : Databases) (typeHashStr : Fp) : Prop :=
  ∀ i j size cSet mSet, i < j → bucketAt d i = some (size, cSet, mSet) → (bucketAt d j).isSome →
    (∀ l ≤ i, ∀ b, bucketAt d l = some b → Whole b.2.1 ∧ Whole b.2.2) →
    (candidates d.cfcDb typeHashStr cSet).length = (candidates d.mfcDb typeHashStr mSet).length

theorem inferTo_some {k : Nat} {s : State P} (reached : inferTo P d md5 input k = some s) :
    ∃ typeHashStr, typeHash md5 input = some typeHashStr := by
  obtain ⟨typeHashStr, hash, -⟩ := Option.bind_eq_some_iff.mp reached
  exact ⟨typeHashStr, hash⟩

theorem inferTo_succ_some (hash : typeHash md5 input = some typeHashStr) {k : Nat} {s' : State P}
    (reached : inferTo P d md5 input (k + 1) = some s') :
    (bucketAt d k = none ∧ inferTo P d md5 input k = some s') ∨
    ∃ s size cSet mSet, bucketAt d k = some (size, cSet, mSet) ∧ inferTo P d md5 input k = some s ∧
      Whole cSet ∧ Whole mSet ∧ Turn d typeHashStr size cSet mSet s s' := by
  cases here : bucketAt d k with
  | none => exact Or.inl ⟨rfl, inferTo_skip hash here ▸ reached⟩
  | some b =>
    obtain ⟨size, cSet, mSet⟩ := b
    obtain ⟨entry, present⟩ := bucketAt_eq here
    rw [inferTo_succ hash entry] at reached
    obtain ⟨s, started, finished⟩ := Option.bind_eq_some_iff.mp reached
    obtain ⟨wholeC, wholeM⟩ := inferBucket_some present finished
    obtain ⟨s₁, same, turn⟩ := inferBucket_turn md5 typeHashStr s present wholeC wholeM
    obtain rfl := Option.some.inj (same.symm.trans finished)
    exact Or.inr ⟨s, size, cSet, mSet, rfl, started, wholeC, wholeM, turn⟩

theorem inferTo_whole (hash : typeHash md5 input = some typeHashStr) (k : Nat)
    (whole : ∀ l < k, ∀ b, bucketAt d l = some b → Whole b.2.1 ∧ Whole b.2.2) :
    ∃ s, inferTo P d md5 input k = some s := by
  induction k with
  | zero => exact ⟨_, inferTo_zero hash⟩
  | succ k ih =>
    obtain ⟨s, started⟩ := ih fun l before => whole l (by omega)
    cases here : bucketAt d k with
    | none => exact ⟨s, (inferTo_skip hash here).trans started⟩
    | some b =>
      obtain ⟨size, cSet, mSet⟩ := b
      obtain ⟨entry, present⟩ := bucketAt_eq here
      obtain ⟨wholeC, wholeM⟩ := whole k (Nat.lt_succ_self k) _ here
      obtain ⟨s', finished, -⟩ := inferBucket_turn md5 typeHashStr s present wholeC wholeM
      exact ⟨s', by rw [inferTo_succ hash entry, started, Option.bind_some, finished]⟩

theorem bucketAt_whole {k : Nat} {s : State P} (reached : inferTo P d md5 input k = some s) :
    ∀ l < k, ∀ b, bucketAt d l = some b → Whole b.2.1 ∧ Whole b.2.2 := by
  obtain ⟨typeHashStr, hash⟩ := inferTo_some reached
  induction k generalizing s with
  | zero => exact fun l before => absurd before (Nat.not_lt_zero l)
  | succ k ih =>
    intro l before b found
    rcases inferTo_succ_some hash reached with ⟨missing, started⟩ | ⟨s₀, size, cSet, mSet, here, started, wholeC, wholeM, -⟩
    · rcases Nat.lt_succ_iff_lt_or_eq.mp before with earlier | rfl
      · exact ih started l earlier b found
      · rw [missing] at found
        cases found
    · rcases Nat.lt_succ_iff_lt_or_eq.mp before with earlier | rfl
      · exact ih started l earlier b found
      · obtain rfl := Option.some.inj (here.symm.trans found)
        exact ⟨wholeC, wholeM⟩

theorem Balanced.queues_empty (balanced : Balanced d typeHashStr) (hash : typeHash md5 input = some typeHashStr)
    {k : Nat} {s : State P} (reached : inferTo P d md5 input k = some s) {j : Nat} (later : k ≤ j)
    (loads : (bucketAt d j).isSome) : P.size s.cQue = 0 ∧ P.size s.mQue = 0 := by
  induction k generalizing s with
  | zero =>
    obtain rfl := Option.some.inj ((inferTo_zero hash).symm.trans reached)
    exact ⟨P.size_empty, P.size_empty⟩
  | succ k ih =>
    rcases inferTo_succ_some hash reached with ⟨-, started⟩ | ⟨s₀, size, cSet, mSet, here, started, wholeC, wholeM, turn⟩
    · exact ih started (by omega)
    · obtain ⟨emptyC, emptyM⟩ := ih started (by omega)
      have whole : ∀ l ≤ k, ∀ b, bucketAt d l = some b → Whole b.2.1 ∧ Whole b.2.2 := by
        intro l before b found
        exact bucketAt_whole reached l (by omega) b found
      have even := balanced k j size cSet mSet later here loads whole
      have leftC := turn.cQue
      have leftM := turn.mQue
      rw [emptyC, emptyM] at leftC leftM
      omega

theorem contents_zero {h : P.Heap} (none_left : P.size h = 0) : P.contents h = 0 :=
  Multiset.card_eq_zero.mp none_left

theorem pairs_within (empty : QueuesEmptyAtLoading P d md5 input) : PairsWithinBuckets P d md5 input := by
  intro k
  induction k with
  | zero =>
    intro s reached size pairs member
    obtain ⟨typeHashStr, hash⟩ := inferTo_some reached
    obtain rfl := Option.some.inj ((inferTo_zero hash).symm.trans reached)
    exact absurd member List.not_mem_nil
  | succ k ih =>
    intro s reached size pairs member
    obtain ⟨typeHashStr, hash⟩ := inferTo_some reached
    rcases inferTo_succ_some hash reached with ⟨-, started⟩ | ⟨s₀, last, cSet, mSet, here, started, wholeC, wholeM, turn⟩
    · exact ih s started size pairs member
    · obtain ⟨compared, added, taken⟩ := turn.buckets
      rw [added] at member
      rcases List.mem_append.mp member with before | new
      · exact ih s₀ started size pairs before
      · cases List.mem_singleton.mp new
        obtain ⟨entry, present⟩ := bucketAt_eq here
        obtain ⟨emptyC, emptyM⟩ := empty k s₀ started (by rw [here]; rfl)
        refine ⟨cSet, mSet, ?_, present, fun m c pair => ?_⟩
        · exact (OrderedMap.get_eq_some _ _ _).mpr (List.mem_of_getElem? entry)
        · obtain ⟨inM, inC⟩ := taken m c pair
          rw [emptyM, Multiset.add_zero, Multiset.mem_coe] at inM
          rw [emptyC, Multiset.add_zero, Multiset.mem_coe] at inC
          exact ⟨mem_candidates inM wholeM, mem_candidates inC wholeC⟩

/-- What an unbalanced bucket leaves is still there when the next bucket is loaded. -/
theorem balanced_of_empty (empty : QueuesEmptyAtLoading P d md5 input) (hash : typeHash md5 input = some typeHashStr) :
    Balanced d typeHashStr := by
  intro i j size cSet mSet before here loads whole
  obtain ⟨s, reached⟩ := inferTo_whole (P := P) hash (i + 1) fun l earlier => whole l (by omega)
  rcases inferTo_succ_some hash reached with ⟨missing, -⟩ | ⟨s₀, _, _, _, same, started, -, -, turn⟩
  · rw [here] at missing
    cases missing
  · cases here.symm.trans same
    obtain ⟨emptyC, emptyM⟩ := empty i s₀ started (by rw [here]; rfl)
    -- Nothing changes until the first bucket after `i` that is on both sides.
    have next : ∃ l, i + 1 ≤ l ∧ (bucketAt d l).isSome ∧ inferTo P d md5 input l = some s := by
      have search : ∀ n l, l + n = j → i + 1 ≤ l → inferTo P d md5 input l = some s →
          ∃ l, i + 1 ≤ l ∧ (bucketAt d l).isSome ∧ inferTo P d md5 input l = some s := by
        intro n
        induction n with
        | zero =>
          rintro l rfl after at_l
          exact ⟨l, after, loads, at_l⟩
        | succ n ih =>
          intro l total after at_l
          cases found : bucketAt d l with
          | some b => exact ⟨l, after, by rw [found]; rfl, at_l⟩
          | none => exact ih (l + 1) (by omega) (by omega) ((inferTo_skip hash found).trans at_l)
      exact search (j - (i + 1)) (i + 1) (by omega) (Nat.le_refl _) reached
    obtain ⟨l, -, loaded, at_l⟩ := next
    obtain ⟨doneC, doneM⟩ := empty l s at_l loaded
    have leftC := turn.cQue
    have leftM := turn.mQue
    rw [PriorityQueue.size, doneC, PriorityQueue.size, emptyM, PriorityQueue.size, emptyC] at leftC
    rw [PriorityQueue.size, doneM, PriorityQueue.size, emptyM, PriorityQueue.size, emptyC] at leftM
    simp only [Multiset.card_zero] at leftC leftM
    omega

/-- The queues are empty at every loading, and so every pair stays within a bucket, exactly if only
the last bucket that is loaded has more chunks of the type on one side than on the other. -/
theorem loading_starts_empty_iff (P : PriorityQueue FC cmp) (d : Databases) (md5 : Bytes → Fp) (input : Bytes) :
    (QueuesEmptyAtLoading P d md5 input ∧ PairsWithinBuckets P d md5 input) ↔
      ∀ typeHashStr, typeHash md5 input = some typeHashStr → Balanced d typeHashStr := by
  constructor
  · rintro ⟨empty, -⟩ typeHashStr hash
    exact balanced_of_empty empty hash
  · intro balanced
    have empty : QueuesEmptyAtLoading P d md5 input := by
      intro k s reached loads
      obtain ⟨typeHashStr, hash⟩ := inferTo_some reached
      obtain ⟨emptyC, emptyM⟩ := (balanced typeHashStr hash).queues_empty hash reached (Nat.le_refl k) loads
      exact ⟨contents_zero emptyC, contents_zero emptyM⟩
    exact ⟨empty, pairs_within empty⟩

/-! ### A bucket with a ciphertext chunk left over -/

def listHeap : PriorityQueue FC cmp :=
  listQueue cmp (by simp [cmp]) (by simp only [cmp, decide_eq_true_eq]; omega)

def digest (s : Bytes) : Fp :=
  if s = chars ['t', 'x', 't'] then Fp.ofBytes [199, 130, 79, 61, 77, 95]
  else if s = [1, 0, 0, 0, 0, 0] then Fp.ofBytes [62, 181, 91, 195, 178, 119]
  else if s = [2, 0, 0, 0, 0, 0] then Fp.ofBytes [211, 155, 40, 13, 57, 88]
  else if s = [3, 0, 0, 0, 0, 0] then Fp.ofBytes [41, 121, 184, 164, 244, 200]
  else Fp.ofBytes s

def encryption (n : UInt8) : Bytes := (digest [n, 0, 0, 0, 0, 0]).bytes

def typed (fp : Bytes) : Bytes := fp ++ (digest (chars ['t', 'x', 't'])).bytes

/-- The encryptions of chunks 1 and 3 are in bucket 1 and that of chunk 2 is in bucket 2. The
plaintext side lacks chunk 3. -/
def leftoverDatabases : Databases where
  cfcDb := OrderedMap.empty.putAll
    [(typed (encryption 1), chars ['3']), (typed (encryption 3), chars ['2']), (typed (encryption 2), chars ['1'])]
  csfDb := OrderedMap.empty.putAll [(chars ['1'], encryption 1 ++ encryption 3), (chars ['2'], encryption 2)]
  mfcDb := OrderedMap.empty.putAll
    [(typed [1, 0, 0, 0, 0, 0], chars ['3']), (typed [2, 0, 0, 0, 0, 0], chars ['1'])]
  msfDb := OrderedMap.empty.putAll [(chars ['1'], [1, 0, 0, 0, 0, 0]), (chars ['2'], [2, 0, 0, 0, 0, 0])]

/-- Chunk 2 is compared with the encryption of chunk 3, which is not in its bucket. -/
theorem loading_starts_empty_leftover :
    ¬ QueuesEmptyAtLoading listHeap leftoverDatabases digest (chars ['t', 'x', 't']) ∧
    ¬ PairsWithinBuckets listHeap leftoverDatabases digest (chars ['t', 'x', 't']) := by
  constructor
  · intro empty
    have left : (inferTo listHeap leftoverDatabases digest (chars ['t', 'x', 't']) 1).map
        (fun s => listHeap.size s.cQue) = some 1 := by decide +kernel
    obtain ⟨s, reached, size⟩ := Option.map_eq_some_iff.mp left
    obtain ⟨drained, -⟩ := empty 1 s reached (by decide +kernel)
    rw [PriorityQueue.size, drained, Multiset.card_zero] at size
    cases size
  · intro within
    have compared : (inferTo listHeap leftoverDatabases digest (chars ['t', 'x', 't']) 2).map
        (fun s => s.buckets.getLast?) =
          some (some (chars ['2'], [(⟨typed [2, 0, 0, 0, 0, 0], 1⟩, ⟨typed (encryption 3), 2⟩)])) := by
      decide +kernel
    obtain ⟨s, reached, last⟩ := Option.map_eq_some_iff.mp compared
    obtain ⟨cSet, mSet, foundC, -, members⟩ := within 2 s reached _ _ (List.mem_of_getLast? last)
    obtain ⟨-, inside⟩ := members _ _ List.mem_cons_self
    have bucket : leftoverDatabases.csfDb.get (chars ['2']) = some (encryption 2) := by decide +kernel
    obtain rfl := Option.some.inj (bucket.symm.trans foundC)
    exact absurd inside (by decide +kernel)

end EncryptedDedup.InferChunksType
