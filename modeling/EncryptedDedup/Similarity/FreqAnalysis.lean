import EncryptedDedup.Similarity.Pair
import EncryptedDedup.Lib.Loop

/-!
# `freq_analysis`

The chunks of paired slices are matched by the ranks of their counts. Two matched chunks of different sizes end the
turn before they are removed from the queues.
-/

namespace EncryptedDedup.Pair

structure ChunkNode where
  key : Fp
  count : Nat
  deriving DecidableEq

/-- `operator <`. -/
def ChunkNode.less (n1 n2 : ChunkNode) : Bool := n1.count < n2.count

structure Inferred where
  infer : Nat
  correct : Nat
  inferDb : OrderedMap Fp Bytes

structure Ranking (P : PriorityQueue ChunkNode ChunkNode.less) where
  cChunk : P.Heap
  pChunk : P.Heap
  found : Inferred

section
variable (P : PriorityQueue ChunkNode ChunkNode.less) (chunkSize : OrderedMap Fp Bytes)

def enqueue (sliceChunkCount : OrderedMap Fp Nat) : P.Heap :=
  sliceChunkCount.entries.foldl (fun que it => P.push que ⟨it.1, it.2⟩) P.empty

/-- `assert(status.ok())`, and the word the value begins with. -/
def sizeOf (key : Fp) : Option Nat := (chunkSize.get key).map fun exv => ofLE (exv.take 8)

def Ranking.popBoth (s : Ranking P) (found : Inferred) : Ranking P :=
  ⟨P.pop s.cChunk, P.pop s.pChunk, found⟩

/-- `while(!c_chunk.empty() && !p_chunk.empty())`. -/
def rankLoop : Loop (Ranking P) where
  guard s := (P.top s.cChunk).isSome && (P.top s.pChunk).isSome
  body s := do
    let cipher ← P.top s.cChunk
    let plain ← P.top s.pChunk
    match s.found.inferDb.get cipher.key with
    | some _ => some (s.popBoth P s.found)
    | none =>
      let uiop ← sizeOf chunkSize plain.key
      let uioc ← sizeOf chunkSize cipher.key
      if uioc ≠ uiop then some { s with found := { s.found with infer := (s.found.infer + 1) % 2 ^ 64 } }
      else some (s.popBoth P ⟨(s.found.infer + 1) % 2 ^ 64,
        if plain.key = cipher.key then (s.found.correct + 1) % 2 ^ 64 else s.found.correct,
        s.found.inferDb.put cipher.key plain.key.bytes⟩)

/-- The turns of the outer loop, with the fuel for the inner one. -/
def analysePairs (fuel : SliceNode K × SliceNode K → Nat) :
    List (SliceNode K × SliceNode K) → Inferred → Outcome Inferred
  | [], found => .finished found
  | it :: its, found =>
    match (rankLoop P chunkSize).run (fuel it)
      ⟨enqueue P it.1.sliceChunkCount, enqueue P it.2.sliceChunkCount, found⟩ with
    | .finished s => analysePairs fuel its s.found
    | .undefined => .undefined
    | .running => .running

def freqAnalysis (fuel : SliceNode K × SliceNode K → Nat) (slicePairing : Pairing K)
    (inferDb : OrderedMap Fp Bytes) : Outcome Inferred :=
  analysePairs P chunkSize fuel (slicePairing.entries.map Prod.snd) ⟨0, 0, inferDb⟩

/-! ### The pairs by rank -/

/-- The fingerprints in the order in which the queues hand them out. -/
def rankedPairs (it : SliceNode K × SliceNode K) : List (Fp × Fp) :=
  ((P.drain (enqueue P it.1.sliceChunkCount)).map ChunkNode.key).zip
    ((P.drain (enqueue P it.2.sliceChunkCount)).map ChunkNode.key)

/-- Two fingerprints of the same rank have chunks of the same size, unless the first one was in the database or has
been inferred before. -/
def SizesAgree (pairs : List (Fp × Fp)) (inferDb : OrderedMap Fp Bytes) : Prop :=
  ∀ before x after, pairs = before ++ x :: after →
    x.1 ∈ inferDb.keys ∨ x.1 ∈ before.map Prod.fst ∨ sizeOf chunkSize x.1 = sizeOf chunkSize x.2

end

/-! ### What a pair adds -/

/-- A turn that removes the chunks from the queues. -/
def Inferred.add (found : Inferred) (x : Fp × Fp) : Inferred :=
  match found.inferDb.get x.1 with
  | some _ => found
  | none => ⟨(found.infer + 1) % 2 ^ 64, if x.2 = x.1 then (found.correct + 1) % 2 ^ 64 else found.correct,
      found.inferDb.put x.1 x.2.bytes⟩

theorem mem_keys_add {found : Inferred} {x : Fp × Fp} {fp : Fp} :
    fp ∈ (found.add x).inferDb.keys ↔ fp = x.1 ∨ fp ∈ found.inferDb.keys := by
  unfold Inferred.add
  cases known : found.inferDb.get x.1 with
  | some v =>
    constructor
    · exact .inr
    · rintro (rfl | before)
      · exact OrderedMap.mem_keys.mpr ⟨v, known⟩
      · exact before
  | none => exact OrderedMap.mem_keys_put

theorem length_fingerprints (m : OrderedMap Fp Bytes) : m.entries.length < 2 ^ 64 := by
  have distinct : (m.keys.map fun fp => ofLE fp.bytes).Nodup := by
    apply m.keys_nodup.map
    intro x y same
    apply Fp.ext
    rw [← toLE_ofLE x.bytes, ← toLE_ofLE y.bytes, x.size_eq, y.size_eq]
    exact congrArg _ same
  have small : (m.keys.map fun fp => ofLE fp.bytes) ⊆ List.range (256 ^ fpSize) := by
    intro n member
    obtain ⟨fp, -, rfl⟩ := List.mem_map.mp member
    rw [List.mem_range, ← fp.size_eq]
    exact ofLE_lt fp.bytes
  have bound := (distinct.subperm small).length_le
  rw [List.length_map, List.length_range, OrderedMap.keys, List.length_map] at bound
  exact bound.trans_lt (by decide)

/-- `infer` counts the entries that were added to `inferDb`. -/
structure Tallied (inferDb : OrderedMap Fp Bytes) (found : Inferred) : Prop where
  added : found.inferDb.entries.length = inferDb.entries.length + found.infer
  correct : found.correct ≤ found.infer

theorem Tallied.add {inferDb : OrderedMap Fp Bytes} {found : Inferred} (tallied : Tallied inferDb found)
    (x : Fp × Fp) : Tallied inferDb (found.add x) := by
  unfold Inferred.add
  cases known : found.inferDb.get x.1 with
  | some v => exact tallied
  | none =>
    have more : (found.inferDb.put x.1 x.2.bytes).entries.length = found.inferDb.entries.length + 1 :=
      OrderedMap.length_put_new (OrderedMap.get_eq_none.mp known)
    have bound := length_fingerprints (found.inferDb.put x.1 x.2.bytes)
    have before := tallied.added
    have fewer := tallied.correct
    have whole : (found.infer + 1) % 2 ^ 64 = found.infer + 1 := Nat.mod_eq_of_lt (by omega)
    refine ⟨?_, ?_⟩
    · dsimp only
      rw [whole]
      omega
    · dsimp only
      rw [whole]
      split
      · exact (Nat.mod_le _ _).trans (Nat.succ_le_succ fewer)
      · omega

theorem foldl_tallied {inferDb : OrderedMap Fp Bytes} {found : Inferred} (tallied : Tallied inferDb found)
    (pairs : List (Fp × Fp)) : Tallied inferDb (pairs.foldl Inferred.add found) := by
  induction pairs generalizing found with
  | nil => exact tallied
  | cons x pairs ih => exact ih (tallied.add x)

/-! ### Pairs that agree -/

section
variable {chunkSize : OrderedMap Fp Bytes}

theorem sizesAgree_cons {x : Fp × Fp} {pairs : List (Fp × Fp)} {found : Inferred} :
    SizesAgree chunkSize (x :: pairs) found.inferDb ↔
      (x.1 ∈ found.inferDb.keys ∨ sizeOf chunkSize x.1 = sizeOf chunkSize x.2) ∧
        SizesAgree chunkSize pairs (found.add x).inferDb := by
  constructor
  · intro agree
    refine ⟨?_, fun before y after split => ?_⟩
    · rcases agree [] x pairs rfl with known | earlier | equal
      · exact .inl known
      · cases earlier
      · exact .inr equal
    · rw [mem_keys_add]
      rcases agree (x :: before) y after (by rw [split]; rfl) with known | earlier | equal
      · exact .inl (.inr known)
      · rcases List.mem_cons.mp earlier with first | later
        · exact .inl (.inl first)
        · exact .inr (.inl later)
      · exact .inr (.inr equal)
  · rintro ⟨here, agree⟩ before y after split
    cases before with
    | nil =>
      obtain ⟨rfl, -⟩ := List.cons.inj split
      rcases here with known | equal
      · exact .inl known
      · exact .inr (.inr equal)
    | cons z before =>
      obtain ⟨rfl, later⟩ := List.cons.inj split
      rcases agree before y after later with known | earlier | equal
      · rcases mem_keys_add.mp known with first | old
        · exact .inr (.inl (List.mem_cons.mpr (.inl first)))
        · exact .inl old
      · exact .inr (.inl (List.mem_cons_of_mem _ earlier))
      · exact .inr (.inr equal)

theorem sizesAgree_append {xs ys : List (Fp × Fp)} {found : Inferred} :
    SizesAgree chunkSize (xs ++ ys) found.inferDb ↔
      SizesAgree chunkSize xs found.inferDb ∧ SizesAgree chunkSize ys (xs.foldl Inferred.add found).inferDb := by
  induction xs generalizing found with
  | nil =>
    have none : SizesAgree chunkSize [] found.inferDb := fun before x after split => by simp at split
    exact ⟨fun agree => ⟨none, agree⟩, fun both => both.2⟩
  | cons x xs ih => rw [List.cons_append, sizesAgree_cons, sizesAgree_cons, ih, List.foldl_cons, and_assoc]

/-! ### The inner loop -/

variable {P : PriorityQueue ChunkNode ChunkNode.less}

/-- The sizes of the chunks in the queues are known. -/
def Covered (chunkSize : OrderedMap Fp Bytes) (nodes : List ChunkNode) : Prop :=
  ∀ n ∈ nodes, (chunkSize.get n.key).isSome

theorem Covered.sizeOf {nodes : List ChunkNode} {n : ChunkNode} (covered : Covered chunkSize (n :: nodes)) :
    ∃ size, sizeOf chunkSize n.key = some size := by
  obtain ⟨exv, found⟩ := Option.isSome_iff_exists.mp (covered n List.mem_cons_self)
  exact ⟨_, congrArg (Option.map _) found⟩

/-- The queues hand out chunks of different sizes, of which the first is not known. -/
def Stuck (chunkSize : OrderedMap Fp Bytes) (s : Ranking P) : Prop :=
  ∃ cipher plain a b, P.top s.cChunk = some cipher ∧ P.top s.pChunk = some plain ∧
    s.found.inferDb.get cipher.key = none ∧ sizeOf chunkSize plain.key = some a ∧
    sizeOf chunkSize cipher.key = some b ∧ b ≠ a

theorem Stuck.keep {s : Ranking P} (stuck : Stuck chunkSize s) : (rankLoop P chunkSize).guard s = true ∧
    ∃ s', (rankLoop P chunkSize).body s = some s' ∧ Stuck chunkSize s' := by
  obtain ⟨cipher, plain, a, b, topC, topP, fresh, sizeP, sizeC, differ⟩ := stuck
  refine ⟨by simp [rankLoop, topC, topP], { s with found := { s.found with infer := (s.found.infer + 1) % 2 ^ 64 } },
    ?_, cipher, plain, a, b, topC, topP, fresh, sizeP, sizeC, differ⟩
  unfold rankLoop
  simp only [topC, topP, fresh, sizeP, sizeC, Option.bind_eq_bind, Option.bind_some, if_pos differ]

theorem body_rankLoop {s : Ranking P} {cipher plain : ChunkNode} {a : Nat} (topC : P.top s.cChunk = some cipher)
    (topP : P.top s.pChunk = some plain) (sizeP : sizeOf chunkSize plain.key = some a)
    (fits : cipher.key ∈ s.found.inferDb.keys ∨ sizeOf chunkSize cipher.key = sizeOf chunkSize plain.key) :
    (rankLoop P chunkSize).body s = some (s.popBoth P (s.found.add (cipher.key, plain.key))) := by
  unfold rankLoop Inferred.add
  cases known : s.found.inferDb.get cipher.key with
  | some v => simp [topC, topP, known]
  | none =>
    have equal := fits.resolve_left (OrderedMap.get_eq_none.mp known)
    rw [sizeP] at equal
    simp [topC, topP, known, sizeP, equal]

theorem run_rankLoop {cs ps : List ChunkNode} (s : Ranking P) (drainC : P.drain s.cChunk = cs)
    (drainP : P.drain s.pChunk = ps) (coveredC : Covered chunkSize cs) (coveredP : Covered chunkSize ps) :
    let pairs := (cs.map ChunkNode.key).zip (ps.map ChunkNode.key)
    (SizesAgree chunkSize pairs s.found.inferDb → ∃ s', (rankLoop P chunkSize).run (min cs.length ps.length) s =
      .finished s' ∧ s'.found = pairs.foldl Inferred.add s.found) ∧
    (¬ SizesAgree chunkSize pairs s.found.inferDb → ∀ fuel, (rankLoop P chunkSize).run fuel s = .running) := by
  have stops : ∀ s : Ranking P, P.drain s.cChunk = [] ∨ P.drain s.pChunk = [] → (rankLoop P chunkSize).guard s = false := by
    intro s empty
    unfold rankLoop
    rcases empty with none | none
    · simp [P.top_of_drain_nil none]
    · simp [P.top_of_drain_nil none]
  induction cs generalizing ps s with
  | nil =>
    refine ⟨fun _ => ⟨s, Loop.run_stopped _ (stops s (.inl drainC)) _, rfl⟩, fun disagree => absurd ?_ disagree⟩
    intro before x after split
    simp at split
  | cons cipher cs ih =>
    cases ps with
    | nil =>
      refine ⟨fun _ => ⟨s, Loop.run_stopped _ (stops s (.inr drainP)) _, rfl⟩, fun disagree => absurd ?_ disagree⟩
      intro before x after split
      simp at split
    | cons plain ps =>
      obtain ⟨topC, restC⟩ := P.drain_cons drainC
      obtain ⟨topP, restP⟩ := P.drain_cons drainP
      obtain ⟨b, sizeC⟩ := coveredC.sizeOf
      obtain ⟨a, sizeP⟩ := coveredP.sizeOf
      have guarded : (rankLoop P chunkSize).guard s = true := by simp [rankLoop, topC, topP]
      obtain ⟨finishes, hangs⟩ := ih (s := s.popBoth P (s.found.add (cipher.key, plain.key))) restC restP
        (fun n member => coveredC n (List.mem_cons_of_mem _ member))
        (fun n member => coveredP n (List.mem_cons_of_mem _ member))
      dsimp only
      rw [List.map_cons, List.map_cons, List.zip_cons_cons, sizesAgree_cons]
      constructor
      · rintro ⟨fits, agree⟩
        obtain ⟨s', ran, all⟩ := finishes agree
        refine ⟨s', ?_, all⟩
        rw [List.length_cons, List.length_cons, Nat.succ_min_succ, Loop.run, if_pos guarded,
          body_rankLoop topC topP sizeP fits]
        exact ran
      · intro disagree fuel
        by_cases fits : cipher.key ∈ s.found.inferDb.keys ∨ sizeOf chunkSize cipher.key = sizeOf chunkSize plain.key
        · have later := hangs fun agree => disagree ⟨fits, agree⟩
          cases fuel with
          | zero => rw [Loop.run, if_pos guarded]
          | succ fuel =>
            rw [Loop.run, if_pos guarded, body_rankLoop topC topP sizeP fits]
            exact later fuel
        · -- neither queue is popped from here on
          obtain ⟨fresh, differ⟩ := not_or.mp fits
          have stuck : Stuck chunkSize s := by
            refine ⟨cipher, plain, a, b, topC, topP, OrderedMap.get_eq_none.mpr fresh, sizeP, sizeC, fun same => differ ?_⟩
            rw [sizeC, sizeP, same]
          exact (rankLoop P chunkSize).run_forever stuck (fun t stuck => stuck.keep) fuel

/-! ### The outer loop -/

theorem contents_enqueue (sliceChunkCount : OrderedMap Fp Nat) :
    P.contents (enqueue P sliceChunkCount) = (sliceChunkCount.entries.map fun it => ChunkNode.mk it.1 it.2) := by
  have grown : ∀ (entries : List (Fp × Nat)) (que : P.Heap),
      P.contents (entries.foldl (fun que it => P.push que ⟨it.1, it.2⟩) que) =
        P.contents que + (entries.map fun it => ChunkNode.mk it.1 it.2 : List ChunkNode) := by
    intro entries
    induction entries with
    | nil => exact fun que => (Multiset.add_zero _).symm
    | cons it entries ih =>
      intro que
      rw [List.foldl_cons, ih, P.contents_push, List.map_cons, ← Multiset.cons_coe, Multiset.cons_add, Multiset.add_cons]
  unfold enqueue
  rw [grown, P.contents_empty, Multiset.zero_add]

theorem length_enqueue (sliceChunkCount : OrderedMap Fp Nat) :
    (P.drain (enqueue P sliceChunkCount)).length = sliceChunkCount.entries.length := by
  rw [P.length_drain, PriorityQueue.size, contents_enqueue, Multiset.coe_card, List.length_map]

theorem mem_enqueue {sliceChunkCount : OrderedMap Fp Nat} {n : ChunkNode}
    (member : n ∈ P.drain (enqueue P sliceChunkCount)) : n.key ∈ sliceChunkCount.keys := by
  rw [P.mem_drain, contents_enqueue] at member
  obtain ⟨it, known, rfl⟩ := List.mem_map.mp (Multiset.mem_coe.mp member)
  exact List.mem_map_of_mem known

variable {K : Type}

/-- The database holds the sizes of the chunks of the slices. -/
def CoversSlices (chunkSize : OrderedMap Fp Bytes) (its : List (SliceNode K × SliceNode K)) : Prop :=
  ∀ it ∈ its, ∀ fp, fp ∈ it.1.sliceChunkCount.keys ∨ fp ∈ it.2.sliceChunkCount.keys → (chunkSize.get fp).isSome

def turns (it : SliceNode K × SliceNode K) : Nat :=
  min it.1.sliceChunkCount.entries.length it.2.sliceChunkCount.entries.length

theorem run_analysePairs {its : List (SliceNode K × SliceNode K)} (found : Inferred)
    (covers : CoversSlices chunkSize its) :
    (SizesAgree chunkSize (its.flatMap (rankedPairs P)) found.inferDb →
      analysePairs P chunkSize turns its found = .finished ((its.flatMap (rankedPairs P)).foldl Inferred.add found)) ∧
    (¬ SizesAgree chunkSize (its.flatMap (rankedPairs P)) found.inferDb →
      ∀ fuel, analysePairs P chunkSize fuel its found = .running) := by
  induction its generalizing found with
  | nil =>
    refine ⟨fun _ => rfl, fun disagree => absurd ?_ disagree⟩
    intro before x after split
    simp at split
  | cons it its ih =>
    obtain ⟨here, covers⟩ := List.forall_mem_cons.mp covers
    obtain ⟨finishes, hangs⟩ := run_rankLoop
      (⟨enqueue P it.1.sliceChunkCount, enqueue P it.2.sliceChunkCount, found⟩ : Ranking P) rfl rfl
      (fun n member => here n.key (.inl (mem_enqueue member))) (fun n member => here n.key (.inr (mem_enqueue member)))
    obtain ⟨later, stays⟩ := ih ((rankedPairs P it).foldl Inferred.add found) covers
    rw [length_enqueue, length_enqueue] at finishes
    rw [List.flatMap_cons, sizesAgree_append, List.foldl_append]
    constructor
    · rintro ⟨first, rest⟩
      obtain ⟨s, ran, all⟩ := finishes first
      rw [analysePairs, turns, ran]
      dsimp only
      rw [all]
      exact later rest
    · intro disagree fuel
      rw [analysePairs]
      by_cases first : SizesAgree chunkSize (rankedPairs P it) found.inferDb
      · obtain ⟨s, ran, all⟩ := finishes first
        rcases Loop.run_of_finished _ ran (fuel it) with short | same
        · rw [short]
        · rw [same]
          dsimp only
          rw [all]
          exact stays (fun rest => disagree ⟨first, rest⟩) fuel
      · rw [hangs first (fuel it)]

/-- `freq_analysis` returns after as many turns as the smaller slices have chunks, with `infer` the number of entries it
added. -/
def Analyses (P : PriorityQueue ChunkNode ChunkNode.less) (chunkSize : OrderedMap Fp Bytes) (slicePairing : Pairing K)
    (inferDb : OrderedMap Fp Bytes) : Prop :=
  ∃ found, freqAnalysis P chunkSize turns slicePairing inferDb = .finished found ∧
    found.inferDb.entries.length = inferDb.entries.length + found.infer ∧ found.correct ≤ found.infer

/-- `freq_analysis` does so exactly if chunks of the same rank have the same size, unless the ciphertext chunk is known
when they are compared; otherwise it does not return. -/
theorem analyses_iff {slicePairing : Pairing K} (inferDb : OrderedMap Fp Bytes)
    (covers : CoversSlices chunkSize (slicePairing.entries.map Prod.snd)) :
    (Analyses P chunkSize slicePairing inferDb ↔
      SizesAgree chunkSize ((slicePairing.entries.map Prod.snd).flatMap (rankedPairs P)) inferDb) ∧
    (¬ SizesAgree chunkSize ((slicePairing.entries.map Prod.snd).flatMap (rankedPairs P)) inferDb →
      ∀ fuel, freqAnalysis P chunkSize fuel slicePairing inferDb = .running) := by
  obtain ⟨finishes, hangs⟩ := run_analysePairs (P := P) ⟨0, 0, inferDb⟩ covers
  refine ⟨⟨?_, fun agree => ?_⟩, hangs⟩
  · rintro ⟨found, ran, -⟩
    by_contra disagree
    have running := hangs disagree turns
    unfold freqAnalysis at ran
    rw [ran] at running
    cases running
  · have tallied : Tallied inferDb ⟨0, 0, inferDb⟩ := ⟨rfl, Nat.le_refl 0⟩
    have all := foldl_tallied tallied ((slicePairing.entries.map Prod.snd).flatMap (rankedPairs P))
    exact ⟨_, finishes agree, all.added, all.correct⟩

end

def chunkQueue : PriorityQueue ChunkNode ChunkNode.less :=
  listQueue ChunkNode.less (fun n => decide_eq_false (Nat.lt_irrefl n.count)) fun n m l first second => by
    unfold ChunkNode.less at first second ⊢
    rw [decide_eq_true_iff] at first second ⊢
    exact Nat.lt_trans first second

def oneChunk (key b : UInt8) (size : Nat) : SliceNode ℚ :=
  ⟨[key], 1, u64 0, 0, OrderedMap.empty.put (Fp.ofBytes [b, b, b, b, b, b]) 1, size⟩

def onePair (c p : SliceNode ℚ) : Pairing ℚ := (insert .empty c p).2

def twoSizes (c p : Nat) : OrderedMap Fp Bytes :=
  (OrderedMap.empty.put (Fp.ofBytes [1, 1, 1, 1, 1, 1]) (u64 c)).put (Fp.ofBytes [2, 2, 2, 2, 2, 2]) (u64 p)

theorem coversSlices_onePair (c p : Nat) : CoversSlices (twoSizes c p)
    ((onePair (oneChunk 7 1 c) (oneChunk 9 2 p)).entries.map Prod.snd) := by
  intro it member fp known
  obtain rfl : it = (oneChunk 7 1 c, oneChunk 9 2 p) := List.mem_singleton.mp member
  rcases known with first | second
  · obtain rfl : fp = Fp.ofBytes [1, 1, 1, 1, 1, 1] := List.mem_singleton.mp first
    rw [twoSizes, OrderedMap.get_put_other _ _ (by decide), OrderedMap.get_put_same]
    rfl
  · obtain rfl : fp = Fp.ofBytes [2, 2, 2, 2, 2, 2] := List.mem_singleton.mp second
    rw [twoSizes, OrderedMap.get_put_same]
    rfl

theorem analyses_iff_onePair :
    (Analyses chunkQueue (twoSizes 8 8) (onePair (oneChunk 7 1 8) (oneChunk 9 2 8)) .empty ↔
      SizesAgree (twoSizes 8 8) (((onePair (oneChunk 7 1 8) (oneChunk 9 2 8)).entries.map Prod.snd).flatMap
        (rankedPairs chunkQueue)) .empty) ∧
    (¬ SizesAgree (twoSizes 8 8) (((onePair (oneChunk 7 1 8) (oneChunk 9 2 8)).entries.map Prod.snd).flatMap
        (rankedPairs chunkQueue)) .empty →
      ∀ fuel, freqAnalysis chunkQueue (twoSizes 8 8) fuel (onePair (oneChunk 7 1 8) (oneChunk 9 2 8)) .empty = .running) :=
  analyses_iff .empty (coversSlices_onePair 8 8)

/-- The chunks of two slices with one chunk each have 8 and 16 bytes: the loop does not end. -/
theorem freqAnalysis_running : CoversSlices (twoSizes 8 16) ((onePair (oneChunk 7 1 8) (oneChunk 9 2 16)).entries.map Prod.snd) ∧
    (∀ fuel, freqAnalysis chunkQueue (twoSizes 8 16) fuel (onePair (oneChunk 7 1 8) (oneChunk 9 2 16)) .empty = .running) ∧
    ¬ Analyses chunkQueue (twoSizes 8 16) (onePair (oneChunk 7 1 8) (oneChunk 9 2 16)) .empty := by
  have hangs : ∀ fuel, freqAnalysis chunkQueue (twoSizes 8 16) fuel (onePair (oneChunk 7 1 8) (oneChunk 9 2 16)) .empty =
      .running := by
    obtain ⟨-, hangs⟩ := run_analysePairs (P := chunkQueue) ⟨0, 0, .empty⟩ (coversSlices_onePair 8 16)
    apply hangs
    intro agree
    have ranks : ((onePair (oneChunk 7 1 8) (oneChunk 9 2 16)).entries.map Prod.snd).flatMap (rankedPairs chunkQueue) =
        [] ++ (Fp.ofBytes [1, 1, 1, 1, 1, 1], Fp.ofBytes [2, 2, 2, 2, 2, 2]) :: [] := by decide +kernel
    rcases agree [] _ [] ranks with known | earlier | equal
    · exact absurd known (by decide)
    · cases earlier
    · exact absurd equal (by decide +kernel)
  refine ⟨coversSlices_onePair 8 16, hangs, ?_⟩
  rintro ⟨found, ran, -⟩
  rw [hangs turns] at ran
  cases ran

end EncryptedDedup.Pair
