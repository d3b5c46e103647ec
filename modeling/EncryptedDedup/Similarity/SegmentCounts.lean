import EncryptedDedup.Similarity.PairMatching

/-!
# What `segment_pair` counts

`operator ==` compares the fingerprints of two segments only while both have some, so it also holds if the
fingerprints of one begin with those of the other.
-/

namespace EncryptedDedup.Pair

/-! ### `operator ==` -/

theorem all_zip_iff {α : Type} [DecidableEq α] {xs ys : List α} :
    (xs.zip ys).all (fun e => e.2 = e.1) = true ↔ xs <+: ys ∨ ys <+: xs := by
  induction xs generalizing ys with
  | nil => simp
  | cons x xs ih =>
    cases ys with
    | nil => simp
    | cons y ys =>
      rw [List.zip_cons_cons, List.all_cons, Bool.and_eq_true, ih, decide_eq_true_iff, List.cons_prefix_cons,
        List.cons_prefix_cons]
      constructor
      · rintro ⟨same, shorter | longer⟩
        · exact .inl ⟨same.symm, shorter⟩
        · exact .inr ⟨same, longer⟩
      · rintro (⟨rfl, shorter⟩ | ⟨rfl, longer⟩)
        · exact ⟨rfl, .inl shorter⟩
        · exact ⟨rfl, .inr longer⟩

theorem eq_or_extends {α : Type} {xs ys : List α} (front : xs <+: ys) : xs = ys ∨ ∃ y rest, ys = xs ++ y :: rest := by
  obtain ⟨more, rfl⟩ := front
  cases more with
  | nil => exact .inl (List.append_nil xs).symm
  | cons y rest => exact .inr ⟨y, rest, rfl⟩

section
variable {K : Type} {n1 n2 : SegmentNode K}

def SameSet (n1 n2 : SegmentNode K) : Prop := ∀ fp, fp ∈ n1.fingerprints ↔ fp ∈ n2.fingerprints

/-- The fingerprints of `n1` end where those of `n2` go on. -/
def Truncates (n1 n2 : SegmentNode K) : Prop := ∃ fp rest, n2.fingerprints = n1.fingerprints ++ fp :: rest

theorem sameSet_iff : SameSet n1 n2 ↔ n1.fingerprints = n2.fingerprints := by
  constructor
  · intro members
    have permuted : n1.fingerprints.Perm n2.fingerprints :=
      (List.perm_ext_iff_of_nodup n1.segmentChunkCount.keys_nodup n2.segmentChunkCount.keys_nodup).mpr members
    apply permuted.eq_of_pairwise (fun (a b : Fp) _ _ (below : a < b) above => absurd above (lt_asymm below))
    · exact List.pairwise_map.mpr n1.segmentChunkCount.sorted
    · exact List.pairwise_map.mpr n2.segmentChunkCount.sorted
  · intro same fp
    rw [same]

instance instDecidableSameSet (n1 n2 : SegmentNode K) : Decidable (SameSet n1 n2) := decidable_of_iff _ sameSet_iff.symm

theorem same_iff : n1.same n2 = true ↔ SameSet n1 n2 ∨ Truncates n1 n2 ∨ Truncates n2 n1 := by
  unfold SegmentNode.same
  rw [all_zip_iff, sameSet_iff]
  constructor
  · rintro (front | front)
    · rcases eq_or_extends front with same | ⟨fp, rest, more⟩
      · exact .inl same
      · exact .inr (.inl ⟨fp, rest, more⟩)
    · rcases eq_or_extends front with same | ⟨fp, rest, more⟩
      · exact .inl same.symm
      · exact .inr (.inr ⟨fp, rest, more⟩)
  · rintro (same | ⟨fp, rest, more⟩ | ⟨fp, rest, more⟩)
    · exact .inl ⟨[], (List.append_nil _).trans same⟩
    · exact .inl ⟨fp :: rest, more.symm⟩
    · exact .inr ⟨fp :: rest, more.symm⟩

theorem Truncates.different (cut : Truncates n1 n2) : ¬ SameSet n1 n2 := by
  obtain ⟨fp, rest, more⟩ := cut
  rw [sameSet_iff, more]
  intro same
  have lengths := congrArg List.length same
  rw [List.length_append, List.length_cons] at lengths
  omega

theorem SameSet.symm (same : SameSet n1 n2) : SameSet n2 n1 := fun fp => (same fp).symm

end

/-! ### The counters -/

section
variable {K : Type} {pairs : List (SegmentNode K × SegmentNode K)} {inferDb : OrderedMap Fp Bytes} {s : Counters}

/-- The counters are those of a comparison by fingerprint sets. -/
structure CountsCorrectly (pairs : List (SegmentNode K × SegmentNode K)) (inferDb : OrderedMap Fp Bytes)
    (s : Counters) : Prop where
  segmentCount : s.segmentCount = pairs.length
  inferSegment : s.inferSegment = (pairs.filter fun x => SameSet x.1 x.2).length
  inferred : ∀ fp, fp ∈ s.inferDb.keys ↔
    fp ∈ inferDb.keys ∨ ∃ x ∈ pairs, SameSet x.1 x.2 ∧ fp ∈ x.1.fingerprints
  segmentInferChunk : s.inferDb.entries.length = inferDb.entries.length + s.segmentInferChunk

theorem Counted.correct_iff (counted : Counted pairs inferDb s) :
    CountsCorrectly pairs inferDb s ↔ ∀ x ∈ pairs, ¬ Truncates x.1 x.2 ∧ ¬ Truncates x.2 x.1 := by
  constructor
  · intro correct x member
    have equal : (pairs.filter fun x => SameSet x.1 x.2).length = (pairs.filter fun x => x.1.same x.2).length :=
      correct.inferSegment.symm.trans counted.inferSegment
    have fewer : (pairs.filter fun x => SameSet x.1 x.2).Sublist (pairs.filter fun x => x.1.same x.2) := by
      apply List.monotone_filter_right
      intro y held
      exact same_iff.mpr (.inl (of_decide_eq_true held))
    have agree := fewer.eq_of_length equal
    have only : x.1.same x.2 = true → SameSet x.1 x.2 := by
      intro held
      have listed : x ∈ pairs.filter fun x => x.1.same x.2 := List.mem_filter.mpr ⟨member, held⟩
      rw [← agree] at listed
      exact of_decide_eq_true (List.mem_filter.mp listed).2
    refine ⟨fun cut => ?_, fun cut => ?_⟩
    · exact cut.different (only (same_iff.mpr (.inr (.inl cut))))
    · exact cut.different (only (same_iff.mpr (.inr (.inr cut)))).symm
  · intro whole
    have agree : ∀ x ∈ pairs, (x.1.same x.2 = true ↔ SameSet x.1 x.2) := by
      intro x member
      rw [same_iff]
      exact or_iff_left fun either => either.elim (whole x member).1 (whole x member).2
    refine ⟨counted.segmentCount, ?_, fun fp => ?_, counted.segmentInferChunk⟩
    · rw [counted.inferSegment]
      congr 1
      apply List.filter_congr
      intro x member
      rw [Bool.eq_iff_iff, agree x member, decide_eq_true_iff]
    · rw [counted.inferred]
      apply or_congr_right
      constructor
      · rintro ⟨x, member, held, inside⟩
        exact ⟨x, member, (agree x member).mp held, inside⟩
      · rintro ⟨x, member, held, inside⟩
        exact ⟨x, member, (agree x member).mpr held, inside⟩

variable [Field K] [LinearOrder K] {P : PriorityQueue (SegmentNode K) SegmentNode.less} {log : K → K} {d : Databases} {minP : K}

/-- `segment_pair` counts correctly exactly if no segment is matched with one whose fingerprints begin with its own,
or the other way round, and no counter gets too large. `segmentInferChunk` is always what was added to `infer_db`. -/
theorem segmentPair_correct_iff {segmentPairing : Pairing K} (matched : matching P log d minP segmentPairing = some pairs) :
    (∀ entries s, segmentPair P log d minP segmentPairing inferDb = some (entries, s) →
      s.segmentCount = pairs.length ∧ s.inferDb.entries.length = inferDb.entries.length + s.segmentInferChunk) ∧
    ((∃ entries s, segmentPair P log d minP segmentPairing inferDb = some (entries, s) ∧ CountsCorrectly pairs inferDb s) ↔
      (∀ x ∈ pairs, ¬ Truncates x.1 x.2 ∧ ¬ Truncates x.2 x.1) ∧ CountersFit pairs inferDb) := by
  rcases segmentPair_counted inferDb matched with ⟨entries, s, ran, counted⟩ | ⟨stuck, tooMany⟩
  · have only : ∀ entries' s', segmentPair P log d minP segmentPairing inferDb = some (entries', s') → s' = s := by
      intro entries' s' ran'
      exact congrArg Prod.snd (Option.some.inj (ran'.symm.trans ran))
    refine ⟨fun entries' s' ran' => ?_, ?_, ?_⟩
    · rw [only entries' s' ran']
      exact ⟨counted.segmentCount, counted.segmentInferChunk⟩
    · intro correct
      obtain ⟨entries', s', ran', correct⟩ := correct
      rw [only entries' s' ran'] at correct
      exact ⟨counted.correct_iff.mp correct, counted.fit⟩
    · intro whole
      exact ⟨entries, s, ran, counted.correct_iff.mpr whole.1⟩
  · refine ⟨fun entries s ran => ?_, ?_, fun whole => absurd whole.2 tooMany⟩
    · rw [stuck] at ran
      cases ran
    · intro correct
      obtain ⟨entries, s, ran, -⟩ := correct
      rw [stuck] at ran
      cases ran

end

/-! ### Segments of eight chunks -/

/-- Eight bytes a chunk; the ciphertext segment has four chunks twice, the plaintext segment has one of them four times,
the others once, and one more. -/
def eightChunks : Databases :=
  ⟨OrderedMap.empty.put (u64 0) ([1, 1, 1, 1, 2, 3, 4, 5].flatMap fun b => List.replicate 6 b),
    OrderedMap.empty.put (u64 0) ([1, 1, 2, 2, 3, 3, 4, 4].flatMap fun b => List.replicate 6 b),
    [1, 2, 3, 4, 5].foldl (fun m b => m.put (Fp.ofBytes (List.replicate 6 b)) (u64 8)) .empty⟩

def eightSlice (key : UInt8) (segDb : OrderedMap Bytes Bytes) : SliceNode ℚ :=
  ⟨[key], 8, u64 0, 2, ((countChunk segDb eightChunks.chunkSize (u64 0)).map ChunkCount.countResult).getD .empty, 64⟩

def eightSlices : Pairing ℚ :=
  (insert .empty (eightSlice 7 eightChunks.cSegDb) (eightSlice 9 eightChunks.pSegDb)).2

theorem segmentPair_correct_iff_eightChunks : ∃ pairs,
    matching segmentQueue dyadicLog eightChunks (1 / 10) eightSlices = some pairs ∧
    (∀ entries s, segmentPair segmentQueue dyadicLog eightChunks (1 / 10) eightSlices .empty = some (entries, s) →
      s.segmentCount = pairs.length ∧
        s.inferDb.entries.length = (OrderedMap.empty : OrderedMap Fp Bytes).entries.length + s.segmentInferChunk) ∧
    ((∃ entries s, segmentPair segmentQueue dyadicLog eightChunks (1 / 10) eightSlices .empty = some (entries, s) ∧
        CountsCorrectly pairs .empty s) ↔
      (∀ x ∈ pairs, ¬ Truncates x.1 x.2 ∧ ¬ Truncates x.2 x.1) ∧ CountersFit pairs .empty) := by
  obtain ⟨pairs, matched⟩ : ∃ pairs, matching segmentQueue dyadicLog eightChunks (1 / 10) eightSlices = some pairs :=
    Option.isSome_iff_exists.mp (by decide +kernel)
  exact ⟨pairs, matched, segmentPair_correct_iff matched⟩

/-- The two segments have the same size and the same entropy. `operator ==` stops after the four fingerprints that they
share, and the segment is counted. -/
theorem eightChunks_counted :
    (segmentPair segmentQueue dyadicLog eightChunks (1 / 10) eightSlices .empty).map (fun r => (r.2.inferSegment,
      r.2.segmentInferChunk)) = some (1, 4) ∧
    ∃ entries s pairs, segmentPair segmentQueue dyadicLog eightChunks (1 / 10) eightSlices .empty = some (entries, s) ∧
      matching segmentQueue dyadicLog eightChunks (1 / 10) eightSlices = some pairs ∧
      (pairs.map fun x => (x.1.fingerprints.length, x.2.fingerprints.length)) = [(4, 5)] ∧
      ¬ CountsCorrectly pairs .empty s := by
  have once : (segmentPair segmentQueue dyadicLog eightChunks (1 / 10) eightSlices .empty).map (fun r =>
      (r.2.inferSegment, r.2.segmentInferChunk)) = some (1, 4) := by decide +kernel
  have lengths : (matching segmentQueue dyadicLog eightChunks (1 / 10) eightSlices).map (fun pairs =>
      pairs.map fun x => (x.1.fingerprints.length, x.2.fingerprints.length)) = some [(4, 5)] := by decide +kernel
  have none : (matching segmentQueue dyadicLog eightChunks (1 / 10) eightSlices).map (fun pairs =>
      (pairs.filter fun x => SameSet x.1 x.2).length) = some 0 := by decide +kernel
  obtain ⟨⟨entries, s⟩, ran, counts⟩ := Option.map_eq_some_iff.mp once
  obtain ⟨pairs, matched, sizes⟩ := Option.map_eq_some_iff.mp lengths
  refine ⟨once, entries, s, pairs, ran, matched, sizes, fun correct => ?_⟩
  rw [matched] at none
  have inferred : s.inferSegment = 1 := congrArg Prod.fst counts
  have equal := correct.inferSegment
  rw [inferred] at equal
  cases equal.trans (Option.some.inj none)

end EncryptedDedup.Pair
