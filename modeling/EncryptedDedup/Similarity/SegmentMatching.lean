import EncryptedDedup.Similarity.Pair
import EncryptedDedup.Lib.Fallible
import Mathlib.Data.List.Dedup

/-!
# What `segment_pair` matches and counts

Which segments are matched is decided by their sizes and entropies alone. The counters follow, until one of them
is larger than an `int`.
-/

namespace EncryptedDedup.Pair

section
variable {K : Type}

def SegmentNode.fingerprints (n : SegmentNode K) : List Fp := n.segmentChunkCount.keys

section
variable [Field K] [LinearOrder K]

/-- A turn of the loop over the ciphertext segments without its counters. -/
def matchSegment (minP : K) (m : List (SegmentNode K) × List (SegmentNode K × SegmentNode K)) (c : SegmentNode K) :
    Option (List (SegmentNode K) × List (SegmentNode K × SegmentNode K)) :=
  let (minDis, minpos) := closestSegment m.1 c
  if minDis < minP then minpos.map fun p =>
    (m.1.set p.2 { p.1 with segmentEntropy := maximumEntropy }, m.2 ++ [(c, p.1)])
  else some m

def matchEntry (P : PriorityQueue (SegmentNode K) SegmentNode.less) (log : K → K) (d : Databases) (minP : K)
    (pairs : List (SegmentNode K × SegmentNode K)) (it : SliceNode K × SliceNode K) :
    Option (List (SegmentNode K × SegmentNode K)) := do
  let cSegment ← loadSegments P log d.cSegDb d.chunkSize it.1.value
  let pSegment ← loadSegments P log d.pSegDb d.chunkSize it.2.value
  let done ← (P.drain cSegment).foldlM (matchSegment minP) (P.drain pSegment, pairs)
  some done.2

def matching (P : PriorityQueue (SegmentNode K) SegmentNode.less) (log : K → K) (d : Databases) (minP : K)
    (segmentPairing : Pairing K) : Option (List (SegmentNode K × SegmentNode K)) :=
  (segmentPairing.entries.map Prod.snd).foldlM (matchEntry P log d minP) []

end

/-! ### The counters -/

/-- The fingerprints of the segments that `operator ==` holds for, without those that are known. -/
def newChunks (pairs : List (SegmentNode K × SegmentNode K)) (inferDb : OrderedMap Fp Bytes) : List Fp :=
  ((pairs.filter fun x => x.1.same x.2).flatMap fun x => x.1.fingerprints).dedup.filter fun fp => fp ∉ inferDb.keys

/-- The counters of all the pairs are at most the largest `int`. -/
structure CountersFit (pairs : List (SegmentNode K × SegmentNode K)) (inferDb : OrderedMap Fp Bytes) : Prop where
  segments : pairs.length ≤ intMax
  chunks : (newChunks pairs inferDb).length ≤ intMax

theorem mem_newChunks {pairs : List (SegmentNode K × SegmentNode K)} {inferDb : OrderedMap Fp Bytes} {fp : Fp} :
    fp ∈ newChunks pairs inferDb ↔ (∃ x ∈ pairs, x.1.same x.2 = true ∧ fp ∈ x.1.fingerprints) ∧ fp ∉ inferDb.keys := by
  simp [newChunks, List.mem_dedup, and_assoc]

theorem newChunks_nodup (pairs : List (SegmentNode K × SegmentNode K)) (inferDb : OrderedMap Fp Bytes) :
    (newChunks pairs inferDb).Nodup := (List.nodup_dedup _).filter _

theorem CountersFit.prefix {pairs more : List (SegmentNode K × SegmentNode K)} {inferDb : OrderedMap Fp Bytes}
    (fit : CountersFit (pairs ++ more) inferDb) : CountersFit pairs inferDb := by
  refine ⟨le_trans ?_ fit.segments, le_trans ?_ fit.chunks⟩
  · simp
  · apply (List.subperm_of_subset (newChunks_nodup pairs inferDb) _).length_le
    intro fp member
    obtain ⟨⟨x, inside, found⟩, unknown⟩ := mem_newChunks.mp member
    exact mem_newChunks.mpr ⟨⟨x, List.mem_append_left _ inside, found⟩, unknown⟩

structure Grown (s : Counters) (ciphers : List Fp) (s' : Counters) : Prop where
  segmentCount : s'.segmentCount = s.segmentCount
  inferSegment : s'.inferSegment = s.inferSegment
  keys : ∀ fp, fp ∈ s'.inferDb.keys ↔ fp ∈ s.inferDb.keys ∨ fp ∈ ciphers
  chunks : s'.inferDb.entries.length + s.segmentInferChunk = s.inferDb.entries.length + s'.segmentInferChunk
  small : s.segmentInferChunk ≤ intMax → s'.segmentInferChunk ≤ intMax

theorem Grown.refl (s : Counters) : Grown s [] s := ⟨rfl, rfl, fun fp => by simp, rfl, id⟩

theorem Grown.cons {s t u : Counters} {cipher : Fp} {ciphers : List Fp} (first : Grown s [cipher] t)
    (rest : Grown t ciphers u) : Grown s (cipher :: ciphers) u := by
  refine ⟨rest.segmentCount.trans first.segmentCount, rest.inferSegment.trans first.inferSegment, fun fp => ?_, ?_,
    fun small => rest.small (first.small small)⟩
  · rw [rest.keys, first.keys, List.mem_singleton, List.mem_cons, or_assoc]
  · have here := first.chunks
    have later := rest.chunks
    omega

theorem inferChunk_cases (s : Counters) (cipher : Fp) :
    (∃ t, s.inferChunk cipher = some t ∧ Grown s [cipher] t) ∨
    (s.inferChunk cipher = none ∧ cipher ∉ s.inferDb.keys ∧ intMax ≤ s.segmentInferChunk) := by
  unfold Counters.inferChunk
  cases found : s.inferDb.get cipher with
  | some v =>
    refine .inl ⟨s, rfl, rfl, rfl, fun fp => ⟨.inl, fun either => ?_⟩, rfl, id⟩
    rcases either with before | now
    · exact before
    · rw [List.mem_singleton.mp now]
      exact OrderedMap.mem_keys.mpr ⟨v, found⟩
  | none =>
    have fresh : cipher ∉ s.inferDb.keys := OrderedMap.get_eq_none.mp found
    by_cases room : s.segmentInferChunk < intMax
    · refine .inl ⟨_, if_pos room, rfl, rfl, fun fp => ?_, ?_, fun _ => room⟩
      · rw [OrderedMap.mem_keys_put, List.mem_singleton, or_comm]
      · dsimp only
        rw [OrderedMap.length_put_new fresh]
        omega
    · exact .inr ⟨if_neg room, fresh, Nat.not_lt.mp room⟩

theorem foldlM_inferChunk (s : Counters) (ciphers : List Fp) :
    (∃ t, ciphers.foldlM Counters.inferChunk s = some t ∧ Grown s ciphers t) ∨
    (ciphers.foldlM Counters.inferChunk s = none ∧ ∃ before t cipher, Grown s before t ∧ cipher ∉ t.inferDb.keys ∧
      intMax ≤ t.segmentInferChunk ∧ ∀ fp ∈ cipher :: before, fp ∈ ciphers) := by
  induction ciphers generalizing s with
  | nil => exact .inl ⟨s, rfl, .refl s⟩
  | cons cipher ciphers ih =>
    rw [List.foldlM_cons]
    rcases inferChunk_cases s cipher with ⟨t, counted, grown⟩ | ⟨stuck, fresh, full⟩
    · rw [counted]
      rcases ih t with ⟨u, ran, rest⟩ | ⟨stuck, before, u, last, rest, fresh, full, inside⟩
      · exact .inl ⟨u, ran, grown.cons rest⟩
      · refine .inr ⟨stuck, cipher :: before, u, last, grown.cons rest, fresh, full, fun fp member => ?_⟩
        rcases List.mem_cons.mp member with rfl | member
        · exact List.mem_cons_of_mem _ (inside fp List.mem_cons_self)
        · rcases List.mem_cons.mp member with rfl | earlier
          · exact List.mem_cons_self
          · exact List.mem_cons_of_mem _ (inside fp (List.mem_cons_of_mem _ earlier))
    · rw [stuck]
      refine .inr ⟨rfl, [], s, cipher, .refl s, fresh, full, fun fp member => ?_⟩
      rw [List.mem_singleton.mp member]
      exact List.mem_cons_self

/-- What the counters hold after the pairs. -/
structure Counted (pairs : List (SegmentNode K × SegmentNode K)) (inferDb : OrderedMap Fp Bytes) (s : Counters) : Prop where
  segmentCount : s.segmentCount = pairs.length
  inferSegment : s.inferSegment = (pairs.filter fun x => x.1.same x.2).length
  inferred : ∀ fp, fp ∈ s.inferDb.keys ↔ fp ∈ inferDb.keys ∨ ∃ x ∈ pairs, x.1.same x.2 = true ∧ fp ∈ x.1.fingerprints
  segmentInferChunk : s.inferDb.entries.length = inferDb.entries.length + s.segmentInferChunk
  small : s.segmentCount ≤ intMax ∧ s.segmentInferChunk ≤ intMax

theorem counted_init (inferDb : OrderedMap Fp Bytes) : Counted (K := K) [] inferDb ⟨0, 0, 0, inferDb⟩ :=
  ⟨rfl, rfl, fun fp => by simp, rfl, Nat.zero_le _, Nat.zero_le _⟩

variable {pairs : List (SegmentNode K × SegmentNode K)} {inferDb : OrderedMap Fp Bytes} {s : Counters}

theorem length_newChunks (pairs : List (SegmentNode K × SegmentNode K)) (inferDb : OrderedMap Fp Bytes) {known : List Fp}
    (distinct : known.Nodup)
    (listed : ∀ fp ∈ known, fp ∈ inferDb.keys ∨ ∃ x ∈ pairs, x.1.same x.2 = true ∧ fp ∈ x.1.fingerprints) :
    known.length ≤ inferDb.entries.length + (newChunks pairs inferDb).length := by
  have inside : known ⊆ inferDb.keys ++ newChunks pairs inferDb := by
    intro fp member
    rw [List.mem_append, mem_newChunks]
    by_cases old : fp ∈ inferDb.keys
    · exact .inl old
    · exact .inr ⟨(listed fp member).resolve_left old, old⟩
  have few := (List.subperm_of_subset distinct inside).length_le
  rwa [List.length_append, OrderedMap.keys, List.length_map] at few

theorem Counted.fit (counted : Counted pairs inferDb s) : CountersFit pairs inferDb := by
  refine ⟨counted.segmentCount ▸ counted.small.1, ?_⟩
  have distinct : (inferDb.keys ++ newChunks pairs inferDb).Nodup := by
    refine List.nodup_append.mpr ⟨inferDb.keys_nodup, newChunks_nodup pairs inferDb, fun fp old fp' new same => ?_⟩
    exact (mem_newChunks.mp new).2 (same ▸ old)
  have inside : inferDb.keys ++ newChunks pairs inferDb ⊆ s.inferDb.keys := by
    intro fp member
    rw [counted.inferred]
    exact (List.mem_append.mp member).imp_right fun new => (mem_newChunks.mp new).1
  have few := (List.subperm_of_subset distinct inside).length_le
  have entries : s.inferDb.keys.length = s.inferDb.entries.length := List.length_map _
  have entries' : inferDb.keys.length = inferDb.entries.length := List.length_map _
  have total := counted.segmentInferChunk
  have small := counted.small.2
  rw [List.length_append] at few
  omega

theorem Counted.count (counted : Counted pairs inferDb s) (c p : SegmentNode K) :
    (∃ s', s.count c p = some s' ∧ Counted (pairs ++ [(c, p)]) inferDb s') ∨
    (s.count c p = none ∧ ¬ CountersFit (pairs ++ [(c, p)]) inferDb) := by
  have matched := counted.segmentCount
  have fewer : s.inferSegment ≤ s.segmentCount := by
    rw [counted.inferSegment, matched]
    exact List.length_filter_le _ _
  unfold Counters.count
  by_cases full : intMax ≤ s.segmentCount
  · refine .inr ⟨if_pos full, fun fit => ?_⟩
    have segments := fit.segments
    rw [List.length_append, List.length_singleton] at segments
    omega
  · rw [if_neg full]
    cases same : c.same p with
    | false =>
      refine .inl ⟨_, rfl, ?_, ?_, fun fp => ?_, counted.segmentInferChunk, Nat.not_le.mp full, counted.small.2⟩
      · simp [matched]
      · simp [counted.inferSegment, same]
      · simp [counted.inferred, or_and_right, exists_or, same]
    | true =>
      rw [if_pos rfl, if_neg (by omega)]
      have all (fp : Fp) : (∃ x ∈ pairs ++ [(c, p)], x.1.same x.2 = true ∧ fp ∈ x.1.fingerprints) ↔
          (∃ x ∈ pairs, x.1.same x.2 = true ∧ fp ∈ x.1.fingerprints) ∨ fp ∈ c.segmentChunkCount.keys := by
        simp [or_and_right, exists_or, same, SegmentNode.fingerprints]
      rcases foldlM_inferChunk { s with segmentCount := s.segmentCount + 1, inferSegment := s.inferSegment + 1 }
          c.segmentChunkCount.keys with ⟨t, ran, grown⟩ | ⟨stuck, before, t, last, grown, fresh, top, inside⟩
      · refine .inl ⟨t, ran, ?_, ?_, fun fp => ?_, ?_, ?_, grown.small counted.small.2⟩
        · simp [grown.segmentCount, matched]
        · simp [grown.inferSegment, counted.inferSegment, same]
        · rw [grown.keys, counted.inferred, all, or_assoc]
        · have total := counted.segmentInferChunk
          have chunks := grown.chunks
          dsimp only at chunks
          omega
        · rw [grown.segmentCount]
          exact Nat.not_le.mp full
      -- the fingerprint that does not fit is one more than the database holds
      · refine .inr ⟨stuck, fun fit => ?_⟩
        have distinct : (last :: t.inferDb.keys).Nodup := List.nodup_cons.mpr ⟨fresh, t.inferDb.keys_nodup⟩
        have few := length_newChunks (pairs ++ [(c, p)]) inferDb distinct (fun fp member => by
            rw [all]
            rcases List.mem_cons.mp member with rfl | held
            · exact .inr (.inr (inside fp List.mem_cons_self))
            · rcases (grown.keys fp).mp held with old | now
              · exact ((counted.inferred fp).mp old).imp_right .inl
              · exact .inr (.inr (inside fp (List.mem_cons_of_mem _ now))))
        have entries : t.inferDb.keys.length = t.inferDb.entries.length := List.length_map _
        have total := counted.segmentInferChunk
        have chunks := grown.chunks
        have bound := fit.chunks
        rw [List.length_cons] at few
        dsimp only at chunks
        omega

end

/-! ### Runs -/

section
variable {K : Type} [Field K] [LinearOrder K] {pairs : List (SegmentNode K × SegmentNode K)}
  {inferDb : OrderedMap Fp Bytes} {minP : K} {P : PriorityQueue (SegmentNode K) SegmentNode.less} {log : K → K} {d : Databases}

theorem matchSegment_cases {m m' : List (SegmentNode K) × List (SegmentNode K × SegmentNode K)} {c : SegmentNode K}
    (matched : matchSegment minP m c = some m') :
    (¬ (closestSegment m.1 c).1 < minP ∧ m' = m) ∨
    ((closestSegment m.1 c).1 < minP ∧ ∃ p, (closestSegment m.1 c).2 = some p ∧
      m' = (m.1.set p.2 { p.1 with segmentEntropy := maximumEntropy }, m.2 ++ [(c, p.1)])) := by
  unfold matchSegment at matched
  dsimp only at matched
  split at matched
  · rename_i near
    obtain ⟨p, chosen, made⟩ := Option.map_eq_some_iff.mp matched
    exact .inr ⟨near, p, chosen, made.symm⟩
  · rename_i far
    exact .inl ⟨far, (Option.some.inj matched).symm⟩

theorem matchSegment_grows {m m' : List (SegmentNode K) × List (SegmentNode K × SegmentNode K)} {c : SegmentNode K}
    (matched : matchSegment minP m c = some m') : ∃ more, m'.2 = m.2 ++ more := by
  rcases matchSegment_cases matched with ⟨-, rfl⟩ | ⟨-, p, -, rfl⟩
  · exact ⟨[], (List.append_nil _).symm⟩
  · exact ⟨_, rfl⟩

theorem matchEntry_grows {pairs' : List (SegmentNode K × SegmentNode K)} {it : SliceNode K × SliceNode K}
    (matched : matchEntry P log d minP pairs it = some pairs') : ∃ more, pairs' = pairs ++ more := by
  obtain ⟨cSegment, -, matched⟩ := Option.bind_eq_some_iff.mp matched
  obtain ⟨pSegment, -, matched⟩ := Option.bind_eq_some_iff.mp matched
  obtain ⟨m, ran, made⟩ := Option.bind_eq_some_iff.mp matched
  obtain rfl := Option.some.inj made
  refine foldlM_keep (R := fun m => ∃ more, m.2 = pairs ++ more) (fun m m' c moved before => ?_) ran
    ⟨[], (List.append_nil _).symm⟩
  obtain ⟨more, same⟩ := before
  obtain ⟨more', same'⟩ := matchSegment_grows moved
  exact ⟨more ++ more', by rw [same', same, List.append_assoc]⟩

theorem foldlM_counted {turns : List (SegmentNode K × Nat)} {t : Segments K}
    {m : List (SegmentNode K) × List (SegmentNode K × SegmentNode K)}
    (matched : (turns.map Prod.fst).foldlM (matchSegment minP) (t.pv, pairs) = some m)
    (counted : Counted pairs inferDb t.counters) :
    (∃ t', turns.foldlM (assignSegment minP) t = some t' ∧ t'.pv = m.1 ∧ Counted m.2 inferDb t'.counters) ∨
    (turns.foldlM (assignSegment minP) t = none ∧ ¬ CountersFit m.2 inferDb) := by
  refine foldlM_follows (R := fun (t : Segments K) m => t.pv = m.1 ∧ Counted m.2 inferDb t.counters)
    (B := fun m => ¬ CountersFit m.2 inferDb) ?_ ?_ matched ⟨rfl, counted⟩
  · intro t m m' c related turn
    obtain ⟨same, counted⟩ := related
    unfold assignSegment
    rcases matchSegment_cases turn with ⟨far, rfl⟩ | ⟨near, p, chosen, rfl⟩
    · rw [same]
      exact .inl ⟨t, if_neg far, same, counted⟩
    · rw [same]
      dsimp only
      rw [if_pos near, chosen]
      rcases counted.count c.1 p.1 with ⟨counters, done, counted'⟩ | ⟨full, tooMany⟩
      · refine .inl ⟨⟨_, t.assigned ++ [(c.2, p.2)], counters⟩, ?_, rfl, counted'⟩
        simp only [Option.bind_eq_bind, Option.bind_some, done]
      · exact .inr ⟨by simp only [Option.bind_eq_bind, Option.bind_some, full, Option.bind_none], tooMany⟩
  · intro m m' c tooMany turn fit
    obtain ⟨more, grown⟩ := matchSegment_grows turn
    rw [grown] at fit
    exact tooMany fit.prefix

theorem pairEntry_counted {done : List (Entry K) × Counters} {it : SliceNode K × SliceNode K}
    {pairs' : List (SegmentNode K × SegmentNode K)} (matched : matchEntry P log d minP pairs it = some pairs')
    (counted : Counted pairs inferDb done.2) :
    (∃ done', pairEntry P log d minP done it = some done' ∧ Counted pairs' inferDb done'.2) ∨
    (pairEntry P log d minP done it = none ∧ ¬ CountersFit pairs' inferDb) := by
  obtain ⟨cSegment, loadedC, matched⟩ := Option.bind_eq_some_iff.mp matched
  obtain ⟨pSegment, loadedP, matched⟩ := Option.bind_eq_some_iff.mp matched
  obtain ⟨m, ran, made⟩ := Option.bind_eq_some_iff.mp matched
  obtain rfl := Option.some.inj made
  have matches' : ((P.drain cSegment).zipIdx.map Prod.fst).foldlM (matchSegment minP) (P.drain pSegment, pairs) = some m := by
    rw [List.zipIdx_map_fst]
    exact ran
  have turns := foldlM_counted (t := ⟨P.drain pSegment, [], done.2⟩) matches' counted
  unfold pairEntry
  rw [loadedC, loadedP]
  simp only [Option.bind_eq_bind, Option.bind_some]
  rcases turns with ⟨t, assigned, -, all⟩ | ⟨stuck, tooMany⟩
  · exact .inl ⟨_, by rw [assigned]; rfl, all⟩
  · exact .inr ⟨by rw [stuck]; rfl, tooMany⟩

/-- `segment_pair` counts the pairs that are matched, if no counter gets too large. -/
theorem segmentPair_counted (inferDb : OrderedMap Fp Bytes) {segmentPairing : Pairing K}
    (matched : matching P log d minP segmentPairing = some pairs) :
    (∃ entries s, segmentPair P log d minP segmentPairing inferDb = some (entries, s) ∧ Counted pairs inferDb s) ∨
    (segmentPair P log d minP segmentPairing inferDb = none ∧ ¬ CountersFit pairs inferDb) := by
  have followed := foldlM_follows (f := pairEntry P log d minP) (g := matchEntry P log d minP) (i := id)
    (R := fun done pairs => Counted pairs inferDb done.2) (B := fun pairs => ¬ CountersFit pairs inferDb)
    (fun done pairs pairs' it counted turn => pairEntry_counted turn counted)
    (fun pairs pairs' it tooMany turn fit => by
      obtain ⟨more, grown⟩ := matchEntry_grows turn
      rw [grown] at fit
      exact tooMany fit.prefix)
    (by rw [List.map_id]; exact matched) (s := ([], ⟨0, 0, 0, inferDb⟩)) (counted_init inferDb)
  rcases followed with ⟨done, ran, counted⟩ | stuck
  · exact .inl ⟨done.1, done.2, ran, counted⟩
  · exact .inr stuck

theorem segmentPair_isSome_iff {segmentPairing : Pairing K} (matched : matching P log d minP segmentPairing = some pairs) :
    (segmentPair P log d minP segmentPairing inferDb).isSome ↔ CountersFit pairs inferDb := by
  rcases segmentPair_counted inferDb matched with ⟨entries, s, ran, counted⟩ | ⟨stuck, tooMany⟩
  · rw [ran]
    exact iff_of_true rfl counted.fit
  · rw [stuck]
    exact iff_of_false Bool.false_ne_true tooMany

end

end EncryptedDedup.Pair
