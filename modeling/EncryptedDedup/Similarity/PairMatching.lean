import EncryptedDedup.Similarity.PairRun
import EncryptedDedup.Similarity.SegmentMatching
import Mathlib.Data.Multiset.MapFold

/-!
# The matching is one-to-one

A slice is in one entry of the two maps at most, and inside an entry a segment is assigned once.
-/

namespace EncryptedDedup.Pair

/-! ### Queues -/

section
variable {K : Type} {P : PriorityQueue (SliceNode K) SliceNode.less}

theorem countPart_fewer {chunkSize : OrderedMap Fp Bytes} {c c' t : ChunkCount} {part : Bytes} (fewer : t.chunks ≤ c.chunks)
    (counted : countPart chunkSize c part = some c') :
    ∃ t', countPart chunkSize t part = some t' ∧ t'.chunks ≤ c'.chunks := by
  unfold countPart at counted ⊢
  split at counted
  · rename_i room
    rw [if_pos ⟨room.1, fewer.trans_lt room.2⟩]
    obtain ⟨exv, found, made⟩ := Option.bind_eq_some_iff.mp counted
    obtain rfl := Option.some.inj made
    exact ⟨_, Option.bind_eq_some_iff.mpr ⟨exv, found, rfl⟩, Nat.succ_le_succ fewer⟩
  · cases counted

theorem countSegment_fewer {segDb : OrderedMap Bytes Bytes} {chunkSize : OrderedMap Fp Bytes} {c c' t : ChunkCount} {id : Bytes}
    (fewer : t.chunks ≤ c.chunks) (counted : countSegment segDb chunkSize c id = some c') :
    ∃ t', countSegment segDb chunkSize t id = some t' ∧ t'.chunks ≤ c'.chunks := by
  unfold countSegment at counted ⊢
  dsimp only at counted ⊢
  split at counted
  · cases counted
  · rename_i short
    rw [if_neg short]
    refine foldlM_related (R := fun t c => t.chunks ≤ c.chunks) (fun _ _ _ _ => ?_) counted fewer
    exact countPart_fewer

theorem segmentIds_wide {value : Bytes} {ids : List Bytes} (cutIn : segmentIds value = some ids) :
    ∀ id ∈ ids, id.length = 8 := by
  unfold segmentIds at cutIn
  split at cutIn
  · cases cutIn
  · obtain rfl := Option.some.inj cutIn
    apply cut_wide (n := value.length / 8)
    rw [List.length_take]
    omega

theorem segmentIds_single {id : Bytes} (wide : id.length = 8) : segmentIds id = some [id] := by
  have alone : cut 8 [id].flatten = [id] := cut_flatten (by decide) (by simpa using wide)
  rw [List.flatten_singleton] at alone
  unfold segmentIds
  rw [if_neg (by rw [wide]; decide), wide, List.take_of_length_le (by omega), alone]

theorem countChunk_single {segDb : OrderedMap Bytes Bytes} {chunkSize : OrderedMap Fp Bytes} {id : Bytes}
    (wide : id.length = 8) : countChunk segDb chunkSize id = countSegment segDb chunkSize ⟨0, .empty, 0⟩ id := by
  simp [countChunk, segmentIds_single wide]

theorem countChunk_ids {segDb : OrderedMap Bytes Bytes} {chunkSize : OrderedMap Fp Bytes} {value : Bytes}
    (counted : (countChunk segDb chunkSize value).isSome) :
    ∃ ids, segmentIds value = some ids ∧ ∀ id ∈ ids, (countChunk segDb chunkSize id).isSome := by
  obtain ⟨c, whole⟩ := Option.isSome_iff_exists.mp counted
  obtain ⟨ids, cutIn, ran⟩ := Option.bind_eq_some_iff.mp whole
  refine ⟨ids, cutIn, fun id member => ?_⟩
  obtain ⟨t, t', turn⟩ := foldlM_turn ran member
  obtain ⟨alone, counted, -⟩ := countSegment_fewer (t := ⟨0, .empty, 0⟩) (Nat.zero_le t.chunks) turn
  rw [countChunk_single (segmentIds_wide cutIn id member), counted]
  rfl

theorem loadSlice_keys [Field K] [LinearOrder K] {log : K → K} {segDb : OrderedMap Bytes Bytes} {chunkSize : OrderedMap Fp Bytes}
    {sliceDb : OrderedMap Bytes Bytes} {que : P.Heap} (loaded : loadSlice P log segDb chunkSize sliceDb = some que) :
    Multiset.map SliceNode.key (P.contents que) = sliceDb.keys := by
  have grown : ∀ (entries : List (Bytes × Bytes)) (h que : P.Heap), entries.foldlM (fun que it => do
      let c ← countChunk segDb chunkSize it.2
      some (P.push que ⟨it.1, c.chunks, it.2, entropy log c.countResult, c.countResult, c.sumSize⟩)) h = some que →
      Multiset.map SliceNode.key (P.contents que) = Multiset.map SliceNode.key (P.contents h) + (entries.map Prod.fst : Multiset Bytes) := by
    intro entries
    induction entries with
    | nil =>
      intro h que done
      obtain rfl := Option.some.inj done
      exact (Multiset.add_zero _).symm
    | cons it entries ih =>
      intro h que done
      rw [List.foldlM_cons] at done
      obtain ⟨h', pushed, rest⟩ := Option.bind_eq_some_iff.mp done
      obtain ⟨c, -, same⟩ := Option.bind_eq_some_iff.mp pushed
      obtain rfl := Option.some.inj same
      rw [ih _ que rest, P.contents_push, Multiset.map_cons, List.map_cons, ← Multiset.cons_coe, Multiset.cons_add,
        Multiset.add_cons]
  have all := grown sliceDb.entries P.empty que loaded
  rw [P.contents_empty, Multiset.map_zero, Multiset.zero_add] at all
  exact all

theorem loadSlice_counted [Field K] [LinearOrder K] {log : K → K} {segDb : OrderedMap Bytes Bytes}
    {chunkSize : OrderedMap Fp Bytes} {sliceDb : OrderedMap Bytes Bytes} {que : P.Heap}
    (loaded : loadSlice P log segDb chunkSize sliceDb = some que) :
    ∀ n ∈ P.contents que, (countChunk segDb chunkSize n.value).isSome := by
  have none : ∀ n ∈ P.contents P.empty, (countChunk segDb chunkSize n.value).isSome := by
    intro n member
    rw [P.contents_empty] at member
    exact absurd member (Multiset.notMem_zero n)
  refine @foldlM_keep _ _ _ (fun h => ∀ n ∈ P.contents h, (countChunk segDb chunkSize n.value).isSome) ?_ _ _ _ loaded none
  intro h h' it pushed before n member
  obtain ⟨c, counted, same⟩ := Option.bind_eq_some_iff.mp pushed
  obtain rfl := Option.some.inj same
  rw [P.contents_push] at member
  rcases Multiset.mem_cons.mp member with rfl | old
  · exact Option.isSome_iff_exists.mpr ⟨c, counted⟩
  · exact before n old

theorem drain_keys {que : P.Heap} (distinct : (Multiset.map SliceNode.key (P.contents que)).Nodup) :
    ((P.drain que).map SliceNode.key).Nodup := by
  rw [← P.drain_contents, Multiset.map_coe, Multiset.coe_nodup] at distinct
  exact distinct

end

/-! ### Positions -/

theorem exists_of_mem_right {α β : Type} {R : α → β → Prop} {xs : List α} {ys : List β} (related : List.Forall₂ R xs ys)
    {y : β} (member : y ∈ ys) : ∃ x ∈ xs, R x y := by
  induction related with
  | nil => cases member
  | cons here _ ih =>
    rcases List.mem_cons.mp member with rfl | later
    · exact ⟨_, List.mem_cons_self, here⟩
    · obtain ⟨x, known, same⟩ := ih later
      exact ⟨x, List.mem_cons_of_mem _ known, same⟩

theorem position_unique {α β : Type} {f : α → β} {xs : List α} (distinct : (xs.map f).Nodup) {i j : Nat} {x y : α}
    (atI : xs[i]? = some x) (atJ : xs[j]? = some y) (same : f x = f y) : i = j := by
  have below : i < (xs.map f).length := by
    rw [List.length_map]
    exact (List.getElem?_eq_some_iff.mp atI).1
  apply (List.getElem?_inj below distinct).mp
  rw [List.getElem?_map, List.getElem?_map, atI, atJ, Option.map_some, Option.map_some, same]

theorem nodup_keys_of_positions {α β γ δ : Type} {f : α → β} {xs : List α} (distinct : (xs.map f).Nodup) {g : γ → Nat}
    {h : δ → α} {cs : List γ} {es : List δ} (related : List.Forall₂ (fun c e => xs[g c]? = some (h e)) cs es)
    (apart : (cs.map g).Nodup) : (es.map fun e => f (h e)).Nodup := by
  induction related with
  | nil => exact List.nodup_nil
  | cons here later ih =>
    rw [List.map_cons, List.nodup_cons] at apart ⊢
    refine ⟨fun member => ?_, ih apart.2⟩
    obtain ⟨e, known, same⟩ := List.mem_map.mp member
    obtain ⟨c, chosen, there⟩ := exists_of_mem_right later known
    exact apart.1 (position_unique distinct there here same ▸ List.mem_map_of_mem chosen)

/-! ### The two maps together -/

section
variable {K : Type}

def State.matched (s : State K) : List (SliceNode K × SliceNode K) :=
  (s.slicePairing.entries ++ s.segmentPairing.entries).map Prod.snd

/-- The slices that were chosen are in one of the maps, and the keys of the maps are those of the ciphertext slices. -/
structure Recorded (oriVec tarVec : List (SliceNode K)) (s : State K) : Prop where
  ledger : ∃ pairs, s.matched.Perm pairs ∧
    List.Forall₂ (fun c e => tarVec[c.1]? = some e.1 ∧ oriVec[c.2]? = some e.2) s.chosen pairs
  keyed : ∀ e ∈ s.slicePairing.entries ++ s.segmentPairing.entries, e.1 = e.2.1.order
  unfailed : s.failed = 0
  pairs : s.overallPairs = s.chosen.length
  once : (s.chosen.map Prod.fst).Nodup
  used : s.used.Nodup

theorem recorded_init (oriVec tarVec : List (SliceNode K)) : Recorded oriVec tarVec (.init oriVec) :=
  ⟨⟨[], .nil, .nil⟩, fun _ member => absurd member List.not_mem_nil, rfl, rfl, List.nodup_nil, List.nodup_nil⟩

variable {oriVec tarVec : List (SliceNode K)} {s : State K}

theorem Recorded.fresh (recorded : Recorded oriVec tarVec s) (distinct : (tarVec.map SliceNode.key).Nodup)
    {p : Nat} {tar : SliceNode K} (here : tarVec[p]? = some tar) (unpaired : p ∉ s.chosen.map Prod.fst) :
    tar.order ∉ s.slicePairing.keys ∧ tar.order ∉ s.segmentPairing.keys := by
  obtain ⟨pairs, permuted, known⟩ := recorded.ledger
  have absent : ∀ e ∈ s.slicePairing.entries ++ s.segmentPairing.entries, e.1 ≠ tar.order := by
    intro e member same
    have listed : e.2 ∈ pairs := permuted.mem_iff.mp (List.mem_map_of_mem member)
    obtain ⟨c, chosen, there, -⟩ := exists_of_mem_right known listed
    rw [recorded.keyed e member] at same
    have keys : e.2.1.key = tar.key := congrArg (fun k => (ofLex k).2) same
    have ranks : c.1 = p := position_unique distinct there here keys
    exact unpaired (ranks ▸ List.mem_map_of_mem chosen)
  constructor
  · intro member
    obtain ⟨e, inside, same⟩ := List.mem_map.mp member
    exact absent e (List.mem_append_left _ inside) same
  · intro member
    obtain ⟨e, inside, same⟩ := List.mem_map.mp member
    exact absent e (List.mem_append_right _ inside) same

theorem insert_fresh {pairing : Pairing K} {tar : SliceNode K} (fresh : tar.order ∉ pairing.keys) (min : SliceNode K) :
    insert pairing tar min = (true, pairing.put tar.order (tar, min)) :=
  if_neg (mt OrderedMap.contains_iff.mp fresh)

variable [Field K] [LinearOrder K]

theorem Recorded.add (recorded : Recorded oriVec tarVec s) (distinct : (tarVec.map SliceNode.key).Nodup)
    {p q : Nat} {tar ori : SliceNode K} (here : tarVec[p]? = some tar) (there : oriVec[q]? = some ori)
    (unpaired : p ∉ s.chosen.map Prod.fst) (unused : q ∉ s.used) (minDiff : K) :
    Recorded oriVec tarVec (s.add minDiff tar ori p q) := by
  obtain ⟨freshSlice, freshSegment⟩ := recorded.fresh distinct here unpaired
  obtain ⟨pairs, permuted, known⟩ := recorded.ledger
  have used : (s.add minDiff tar ori p q).used = s.used ++ [q] := by
    unfold State.used
    rw [add_chosen, List.map_append, List.map_singleton]
  have counted : (s.add minDiff tar ori p q).overallPairs = s.overallPairs + 1 := by
    unfold State.add
    dsimp only
    split <;> rfl
  -- whichever map is chosen, the entry is new in it
  have entries : ((s.add minDiff tar ori p q).slicePairing.entries ++
      (s.add minDiff tar ori p q).segmentPairing.entries).Perm
        (s.slicePairing.entries ++ s.segmentPairing.entries ++ [(tar.order, (tar, ori))]) ∧
      (s.add minDiff tar ori p q).failed = s.failed := by
    unfold State.add
    dsimp only
    split
    · dsimp only
      rw [insert_fresh freshSegment, if_pos rfl, List.append_assoc]
      exact ⟨(OrderedMap.entries_put_new freshSegment _).append_left _, rfl⟩
    · dsimp only
      rw [insert_fresh freshSlice, if_pos rfl, List.append_assoc]
      refine ⟨((OrderedMap.entries_put_new freshSlice _).append_right _).trans ?_, rfl⟩
      rw [List.append_assoc]
      exact List.perm_append_comm.append_left _
  refine ⟨⟨pairs ++ [(tar, ori)], ?_, ?_⟩, fun e member => ?_, ?_, ?_, ?_, ?_⟩
  · refine (entries.1.map Prod.snd).trans ?_
    rw [List.map_append]
    exact permuted.append_right _
  · rw [add_chosen]
    exact List.rel_append known (.cons ⟨here, there⟩ .nil)
  · rcases List.mem_append.mp (entries.1.mem_iff.mp member) with old | new
    · exact recorded.keyed e old
    · rw [List.mem_singleton.mp new]
  · exact entries.2.trans recorded.unfailed
  · rw [counted, add_chosen, List.length_append, recorded.pairs]
    rfl
  · rw [add_chosen, List.map_append, List.map_singleton, ← List.concat_eq_append, List.nodup_concat]
    exact ⟨unpaired, recorded.once⟩
  · rw [used, ← List.concat_eq_append, List.nodup_concat]
    exact ⟨unused, recorded.used⟩

/-! ### Runs of `pair` -/

variable [IsStrictOrderedRing K] {t : K} {r : Nat}

theorem foldlM_recorded (distinct : (tarVec.map SliceNode.key).Nodup) {turns : List (SliceNode K × Nat)}
    (bounded : ∀ tar ∈ turns, Bounded t tar.1) (known : ∀ tar ∈ turns, tarVec[tar.2]? = some tar.1)
    (apart : (turns.map Prod.snd).Nodup) (later : ∀ tar ∈ turns, tar.2 ∉ s.chosen.map Prod.fst)
    (marked : Marked oriVec s) (recorded : Recorded oriVec tarVec s) :
    ∃ s', turns.foldlM (pairSlice t r) s = some s' ∧ Recorded oriVec tarVec s' := by
  induction turns generalizing s with
  | nil => exact ⟨s, rfl, recorded⟩
  | cons tar turns ih =>
    obtain ⟨boundedHere, bounded⟩ := List.forall_mem_cons.mp bounded
    obtain ⟨here, known⟩ := List.forall_mem_cons.mp known
    obtain ⟨unpaired, later⟩ := List.forall_mem_cons.mp later
    rw [List.map_cons, List.nodup_cons] at apart
    rcases pairSlice_cases (r := r) marked boundedHere with ⟨q, ori, ran, at_, there, unused, -⟩ | ⟨ran, -⟩
    · have after : ∀ tar' ∈ turns, tar'.2 ∉ (s.add (difference tar.1 ori) tar.1 ori tar.2 q).chosen.map Prod.fst := by
        intro tar' member paired
        rw [add_chosen, List.map_append, List.mem_append] at paired
        rcases paired with old | now
        · exact later tar' member old
        · rw [List.map_singleton, List.mem_singleton] at now
          have later : tar'.2 ∈ turns.map Prod.snd := List.mem_map_of_mem member
          rw [now] at later
          exact apart.1 later
      obtain ⟨s', finished, all⟩ := ih bounded known apart.2 after (marked.add unused at_ _ _ _)
        (recorded.add distinct here there unpaired unused _)
      refine ⟨s', ?_, all⟩
      rw [List.foldlM_cons, ran]
      exact finished
    · obtain ⟨s', finished, all⟩ := ih bounded known apart.2 later marked recorded
      refine ⟨s', ?_, all⟩
      rw [List.foldlM_cons, ran]
      exact finished

/-- Every slice is in one entry of the two maps at most, as it was loaded. -/
structure OneToOne (oriVec tarVec : List (SliceNode K)) (s : State K) : Prop where
  ciphers : (s.matched.map fun e => e.1.key).Nodup
  plains : (s.matched.map fun e => e.2.key).Nodup
  loaded : ∀ e ∈ s.matched, e.1 ∈ tarVec ∧ e.2 ∈ oriVec
  unfailed : s.failed = 0
  pairs : s.overallPairs = s.slicePairing.entries.length + s.segmentPairing.entries.length

omit [Field K] [LinearOrder K] [IsStrictOrderedRing K] in
theorem Recorded.oneToOne (recorded : Recorded oriVec tarVec s) (distinctO : (oriVec.map SliceNode.key).Nodup)
    (distinctT : (tarVec.map SliceNode.key).Nodup) : OneToOne oriVec tarVec s := by
  obtain ⟨pairs, permuted, known⟩ := recorded.ledger
  refine ⟨?_, ?_, fun e member => ?_, recorded.unfailed, ?_⟩
  · rw [(permuted.map _).nodup_iff]
    exact nodup_keys_of_positions distinctT (known.imp fun _ _ both => both.1) recorded.once
  · rw [(permuted.map _).nodup_iff]
    exact nodup_keys_of_positions distinctO (known.imp fun _ _ both => both.2) recorded.used
  · obtain ⟨c, -, here, there⟩ := exists_of_mem_right known (permuted.mem_iff.mp member)
    exact ⟨List.mem_of_getElem? here, List.mem_of_getElem? there⟩
  · have lengths := permuted.length_eq
    unfold State.matched at lengths
    rw [List.length_map, List.length_append, ← known.length_eq] at lengths
    rw [recorded.pairs, lengths]

omit [Field K] [LinearOrder K] [IsStrictOrderedRing K] in
theorem ranks_nodup (oriVec tarVec : List (SliceNode K)) (u : Nat) :
    ((targets oriVec tarVec u).map Prod.snd).Nodup := by
  unfold targets
  rw [List.map_take, List.zipIdx_map_snd]
  exact (List.nodup_range').sublist (List.take_sublist _ _)

/-! ### Segments -/

end

section
variable {K : Type}

/-- Every plaintext segment is assigned at most once, every ciphertext segment too, and only to one of the same
size. -/
structure Assigned (cv pv : List (SegmentNode K)) (assigned : List (Nat × Nat)) : Prop where
  ciphers : (assigned.map Prod.fst).Nodup
  plains : (assigned.map Prod.snd).Nodup
  sizes : ∀ a ∈ assigned, ∃ c p : SegmentNode K, cv[a.1]? = some c ∧ pv[a.2]? = some p ∧ c.sumSize = p.sumSize

/-- The assigned segments have the sentinel for their entropy. -/
structure SegmentsMarked [Field K] (cv pv : List (SegmentNode K)) (s : Segments K) : Prop where
  assigned : Assigned cv pv s.assigned
  sizes : ∀ (j : Nat) (p : SegmentNode K), s.pv[j]? = some p →
    ∃ p' : SegmentNode K, pv[j]? = some p' ∧ p.sumSize = p'.sumSize
  overwritten : ∀ j ∈ s.assigned.map Prod.snd, ∀ p : SegmentNode K, s.pv[j]? = some p →
    p.segmentEntropy = maximumEntropy

/-- A pair of equal sizes is assigned, neither half of which was. -/
theorem SegmentsMarked.assign [Field K] {cv pv : List (SegmentNode K)} {s s' : Segments K} {c p : SegmentNode K} {i j : Nat}
    (marked : SegmentsMarked cv pv s) (cipher : cv[i]? = some c) (plain : s.pv[j]? = some p)
    (equal : c.sumSize = p.sumSize) (unassigned : i ∉ s.assigned.map Prod.fst) (fresh : j ∉ s.assigned.map Prod.snd)
    (overwrites : s'.pv = s.pv.set j { p with segmentEntropy := maximumEntropy })
    (assigns : s'.assigned = s.assigned ++ [(i, j)]) : SegmentsMarked cv pv s' := by
  obtain ⟨p', old, same⟩ := marked.sizes j p plain
  have inside : j < s.pv.length := (List.getElem?_eq_some_iff.mp plain).1
  refine ⟨⟨?_, ?_, ?_⟩, ?_, ?_⟩
  · rw [assigns, List.map_append, List.map_singleton, ← List.concat_eq_append, List.nodup_concat]
    exact ⟨unassigned, marked.assigned.ciphers⟩
  · rw [assigns, List.map_append, List.map_singleton, ← List.concat_eq_append, List.nodup_concat]
    exact ⟨fresh, marked.assigned.plains⟩
  · intro a member
    rw [assigns] at member
    rcases List.mem_append.mp member with before | now
    · exact marked.assigned.sizes a before
    · rw [List.mem_singleton.mp now]
      exact ⟨c, p', cipher, old, equal.trans same⟩
  · intro k q there
    rw [overwrites] at there
    by_cases moved : j = k
    · subst moved
      rw [List.getElem?_set_self inside] at there
      rw [← Option.some.inj there]
      exact ⟨p', old, same⟩
    · rw [List.getElem?_set_ne moved] at there
      exact marked.sizes k q there
  · intro k used q there
    rw [overwrites] at there
    rw [assigns, List.map_append, List.mem_append] at used
    by_cases moved : j = k
    · subst moved
      rw [List.getElem?_set_self inside] at there
      rw [← Option.some.inj there]
    · rw [List.getElem?_set_ne moved] at there
      refine marked.overwritten k (used.resolve_right fun now => moved ?_) q there
      exact (List.mem_singleton.mp now).symm

variable [Field K] [LinearOrder K]

/-- An entropy is not negative, and below the sentinel by more than the threshold. -/
def Small (minP : K) (c : SegmentNode K) : Prop :=
  0 ≤ c.segmentEntropy ∧ c.segmentEntropy < maximumEntropy - minP

def segmentDifference (c p : SegmentNode K) : K :=
  if c.segmentEntropy - p.segmentEntropy < 0 then -(c.segmentEntropy - p.segmentEntropy)
  else c.segmentEntropy - p.segmentEntropy

theorem closestSegment_eq (pv : List (SegmentNode K)) (c : SegmentNode K) : closestSegment pv c =
    nearest (fun p => c.sumSize = p.1.sumSize) (fun p => segmentDifference c p.1) maximumEntropy pv.zipIdx := rfl

variable [IsStrictOrderedRing K]

theorem segmentDifference_eq (c p : SegmentNode K) : segmentDifference c p = |p.segmentEntropy - c.segmentEntropy| := by
  unfold segmentDifference
  rw [abs_sub_comm]
  split
  · rename_i negative
    rw [abs_of_neg negative]
  · rename_i nonneg
    rw [abs_of_nonneg (not_lt.mp nonneg)]

theorem matchSegment_isSome {minP : K} {c : SegmentNode K} (small : Small minP c)
    (m : List (SegmentNode K) × List (SegmentNode K × SegmentNode K)) : (matchSegment minP m c).isSome := by
  unfold matchSegment
  rw [closestSegment_eq]
  rcases @nearest_spec _ _ _ (fun p : SegmentNode K × Nat => decide (c.sumSize = p.1.sumSize))
      (fun p => segmentDifference c p.1) maximumEntropy m.1.zipIdx with ⟨p, best, -⟩ | ⟨best, -⟩
  · rw [best]
    dsimp only
    split <;> rfl
  · have far : ¬ maximumEntropy < minP := by
      have both := small
      unfold Small at both
      linarith
    rw [best]
    dsimp only
    rw [if_neg far]
    rfl

theorem assignSegment_marked {minP : K} {cv pv : List (SegmentNode K)} {s s' : Segments K} {c : SegmentNode K × Nat}
    (small : Small minP c.1) (here : cv[c.2]? = some c.1) (unassigned : c.2 ∉ s.assigned.map Prod.fst)
    (marked : SegmentsMarked cv pv s) (ran : assignSegment minP s c = some s') :
    SegmentsMarked cv pv s' ∧ (s'.assigned = s.assigned ∨ ∃ j, s'.assigned = s.assigned ++ [(c.2, j)]) := by
  unfold assignSegment at ran
  rw [closestSegment_eq] at ran
  rcases @nearest_spec _ _ _ (fun p : SegmentNode K × Nat => decide (c.1.sumSize = p.1.sumSize))
      (fun p => segmentDifference c.1 p.1) maximumEntropy s.pv.zipIdx with ⟨⟨p, j⟩, best, known, fits, -, -⟩ | ⟨best, -⟩
  · rw [best] at ran
    dsimp only at ran
    split at ran
    · rename_i near
      obtain ⟨chosen, same, ran⟩ := Option.bind_eq_some_iff.mp ran
      obtain rfl := Option.some.inj same
      obtain ⟨counters, -, made⟩ := Option.bind_eq_some_iff.mp ran
      obtain rfl := Option.some.inj made
      refine ⟨?_, .inr ⟨j, rfl⟩⟩
      have at_ : s.pv[j]? = some p := List.mk_mem_zipIdx_iff_getElem?.mp known
      have equal : c.1.sumSize = p.sumSize := of_decide_eq_true fits
      -- the sentinel is further than the threshold, so the segment was not assigned
      have fresh : j ∉ s.assigned.map Prod.snd := by
        intro used
        have sentinel := marked.overwritten j used p at_
        rw [segmentDifference_eq, sentinel] at near
        have below := small.2
        linarith [le_abs_self (maximumEntropy - c.1.segmentEntropy)]
      exact marked.assign here at_ equal unassigned fresh rfl rfl
    · obtain rfl := Option.some.inj ran
      exact ⟨marked, .inl rfl⟩
  · have far : ¬ maximumEntropy < minP := by
      have both := small
      unfold Small at both
      linarith
    rw [best] at ran
    dsimp only at ran
    rw [if_neg far] at ran
    obtain rfl := Option.some.inj ran
    exact ⟨marked, .inl rfl⟩

theorem foldlM_assigned {minP : K} {cv pv : List (SegmentNode K)} {turns : List (SegmentNode K × Nat)}
    {s s' : Segments K} (small : ∀ c ∈ turns, Small minP c.1) (known : ∀ c ∈ turns, cv[c.2]? = some c.1)
    (apart : (turns.map Prod.snd).Nodup) (later : ∀ c ∈ turns, c.2 ∉ s.assigned.map Prod.fst)
    (marked : SegmentsMarked cv pv s) (ran : turns.foldlM (assignSegment minP) s = some s') : Assigned cv pv s'.assigned := by
  induction turns generalizing s with
  | nil =>
    obtain rfl := Option.some.inj ran
    exact marked.assigned
  | cons c turns ih =>
    obtain ⟨smallHere, small⟩ := List.forall_mem_cons.mp small
    obtain ⟨here, known⟩ := List.forall_mem_cons.mp known
    obtain ⟨unassigned, later⟩ := List.forall_mem_cons.mp later
    rw [List.map_cons, List.nodup_cons] at apart
    rw [List.foldlM_cons] at ran
    obtain ⟨s₁, step, rest⟩ := Option.bind_eq_some_iff.mp ran
    obtain ⟨kept, grown⟩ := assignSegment_marked smallHere here unassigned marked step
    refine ih small known apart.2 (fun c' member => ?_) kept rest
    rcases grown with same | ⟨j, same⟩
    · rw [same]
      exact later c' member
    · rw [same, List.map_append, List.mem_append, not_or]
      refine ⟨later c' member, fun now => apart.1 ?_⟩
      rw [List.map_singleton, List.mem_singleton] at now
      have listed : c'.2 ∈ turns.map Prod.snd := List.mem_map_of_mem member
      rwa [now] at listed

/-- The entropies of the ciphertext segments are not negative, and below the sentinel by more than the threshold. -/
def SmallSegments (log : K → K) (d : Databases) (minP : K) : Prop :=
  ∀ id c, id.length = 8 → countChunk d.cSegDb d.chunkSize id = some c →
    0 ≤ entropy log c.countResult ∧ entropy log c.countResult < maximumEntropy - minP

variable {Q : PriorityQueue (SegmentNode K) SegmentNode.less} {log : K → K} {d : Databases} {minP : K}

omit [IsStrictOrderedRing K] in
theorem loadSegments_isSome {segDb : OrderedMap Bytes Bytes} {chunkSize : OrderedMap Fp Bytes} {value : Bytes}
    (counted : (countChunk segDb chunkSize value).isSome) : (loadSegments Q log segDb chunkSize value).isSome := by
  obtain ⟨ids, cutIn, each⟩ := countChunk_ids counted
  unfold loadSegments
  rw [cutIn]
  refine foldlM_isSome (fun id member h => ?_) _
  obtain ⟨c, found⟩ := Option.isSome_iff_exists.mp (each id member)
  rw [found]
  rfl

omit [IsStrictOrderedRing K] in
theorem loadSegments_small (small : SmallSegments log d minP) {value : Bytes} {que : Q.Heap}
    (loaded : loadSegments Q log d.cSegDb d.chunkSize value = some que) : ∀ c ∈ Q.drain que, Small minP c := by
  have none : ∀ c ∈ Q.contents Q.empty, Small minP c := by
    intro c member
    rw [Q.contents_empty] at member
    exact absurd member (Multiset.notMem_zero c)
  obtain ⟨ids, cutIn, ran⟩ := Option.bind_eq_some_iff.mp loaded
  have wide := segmentIds_wide cutIn
  clear cutIn loaded
  suffices all : ∀ c ∈ Q.contents que, Small minP c from fun c member => all c (Q.mem_drain.mp member)
  revert ran none
  generalize Q.empty = h
  induction ids generalizing h with
  | nil =>
    intro none ran
    obtain rfl := Option.some.inj ran
    exact none
  | cons id ids ih =>
    intro none ran
    rw [List.foldlM_cons] at ran
    obtain ⟨h₁, pushed, rest⟩ := Option.bind_eq_some_iff.mp ran
    obtain ⟨c, counted, made⟩ := Option.bind_eq_some_iff.mp pushed
    obtain rfl := Option.some.inj made
    refine ih (fun id member => wide id (List.mem_cons_of_mem _ member)) _ (fun n member => ?_) rest
    rw [Q.contents_push] at member
    rcases Multiset.mem_cons.mp member with rfl | old
    · exact small id c (wide id List.mem_cons_self) counted
    · exact none n old

omit [Field K] [LinearOrder K] [IsStrictOrderedRing K] in
theorem zipIdx_ranks (cv : List (SegmentNode K)) : (cv.zipIdx.map Prod.snd).Nodup := by
  rw [List.zipIdx_map_snd]
  exact List.nodup_range'

theorem matchEntry_isSome (small : SmallSegments log d minP) {it : SliceNode K × SliceNode K}
    (cipher : (countChunk d.cSegDb d.chunkSize it.1.value).isSome)
    (plain : (countChunk d.pSegDb d.chunkSize it.2.value).isSome) (pairs : List (SegmentNode K × SegmentNode K)) :
    (matchEntry Q log d minP pairs it).isSome := by
  have loads : (loadSegments Q log d.cSegDb d.chunkSize it.1.value).isSome := loadSegments_isSome cipher
  have loads' : (loadSegments Q log d.pSegDb d.chunkSize it.2.value).isSome := loadSegments_isSome plain
  obtain ⟨cSegment, loadedC⟩ := Option.isSome_iff_exists.mp loads
  obtain ⟨pSegment, loadedP⟩ := Option.isSome_iff_exists.mp loads'
  have found := foldlM_isSome (f := matchSegment minP)
    (fun c member m => matchSegment_isSome (loadSegments_small small loadedC c member) m) (Q.drain pSegment, pairs)
  obtain ⟨done, ran⟩ := Option.isSome_iff_exists.mp found
  unfold matchEntry
  rw [loadedC, loadedP]
  simp only [Option.bind_eq_bind, Option.bind_some, ran]
  rfl

theorem pairEntry_assigned (small : SmallSegments log d minP) {done done' : List (Entry K) × Counters}
    {it : SliceNode K × SliceNode K} (ran : pairEntry Q log d minP done it = some done') :
    ∃ e, done'.1 = done.1 ++ [e] ∧ Assigned e.cv e.pv e.assigned := by
  obtain ⟨cSegment, loadedC, ran⟩ := Option.bind_eq_some_iff.mp ran
  obtain ⟨pSegment, -, ran⟩ := Option.bind_eq_some_iff.mp ran
  obtain ⟨s, turns, made⟩ := Option.bind_eq_some_iff.mp ran
  obtain rfl := Option.some.inj made
  refine ⟨⟨Q.drain cSegment, Q.drain pSegment, s.assigned⟩, rfl, ?_⟩
  have known : ∀ c ∈ (Q.drain cSegment).zipIdx, (Q.drain cSegment)[c.2]? = some c.1 :=
    fun c member => List.mem_zipIdx_iff_getElem?.mp member
  have start : SegmentsMarked (Q.drain cSegment) (Q.drain pSegment) ⟨Q.drain pSegment, [], done.2⟩ :=
    ⟨⟨List.nodup_nil, List.nodup_nil, fun a member => absurd member List.not_mem_nil⟩, fun j p there => ⟨p, there, rfl⟩,
      fun j member => absurd member List.not_mem_nil⟩
  refine foldlM_assigned (fun c member => ?_) known (zipIdx_ranks _) (fun c _ => List.not_mem_nil) start turns
  exact loadSegments_small small loadedC c.1 (List.mem_of_getElem? (known c member))

theorem segmentPair_assigned (small : SmallSegments log d minP) {its : List (SliceNode K × SliceNode K)}
    {done done' : List (Entry K) × Counters} (ran : its.foldlM (pairEntry Q log d minP) done = some done')
    (before : ∀ e ∈ done.1, Assigned e.cv e.pv e.assigned) :
    done'.1.length = done.1.length + its.length ∧ ∀ e ∈ done'.1, Assigned e.cv e.pv e.assigned := by
  induction its generalizing done with
  | nil =>
    obtain rfl := Option.some.inj ran
    exact ⟨rfl, before⟩
  | cons it its ih =>
    rw [List.foldlM_cons] at ran
    obtain ⟨done₁, step, rest⟩ := Option.bind_eq_some_iff.mp ran
    obtain ⟨e, same, assigned⟩ := pairEntry_assigned small step
    have before' : ∀ e' ∈ done₁.1, Assigned e'.cv e'.pv e'.assigned := by
      intro e' member
      rw [same] at member
      rcases List.mem_append.mp member with old | new
      · exact before e' old
      · rw [List.mem_singleton.mp new]
        exact assigned
    obtain ⟨lengths, all⟩ := ih rest before'
    refine ⟨?_, all⟩
    rw [lengths, same, List.length_append, List.length_singleton, List.length_cons]
    omega

/-! ### The program -/

variable {P : PriorityQueue (SliceNode K) SliceNode.less}

/-- Of slices loaded from databases, `pair` pairs each once at most. `segment_pair` finds what to match, ends exactly
if its counters are large enough, and assigns the segments of every entry of `segment_pairing` once at most, and
only to segments of the same size. -/
theorem pair_oneToOne {pSliceDb cSliceDb : OrderedMap Bytes Bytes} {pSlice cSlice : P.Heap} (u r : Nat)
    (loadedP : loadSlice P log d.pSegDb d.chunkSize pSliceDb = some pSlice)
    (loadedC : loadSlice P log d.cSegDb d.chunkSize cSliceDb = some cSlice)
    (bounded : ∀ n ∈ P.contents cSlice, Bounded t n) :
    ∃ s, pair P pSlice cSlice u r t = some s ∧ OneToOne (P.drain pSlice) (P.drain cSlice) s ∧
      ∀ minP inferDb, SmallSegments log d minP → ∃ pairs, matching Q log d minP s.segmentPairing = some pairs ∧
        ((segmentPair Q log d minP s.segmentPairing inferDb).isSome ↔ CountersFit pairs inferDb) ∧
        ∀ entries, segmentPair Q log d minP s.segmentPairing inferDb = some entries →
          entries.1.length = s.segmentPairing.entries.length ∧ ∀ e ∈ entries.1, Assigned e.cv e.pv e.assigned := by
  have distinctP : ((P.drain pSlice).map SliceNode.key).Nodup := by
    apply drain_keys
    rw [loadSlice_keys loadedP, Multiset.coe_nodup]
    exact pSliceDb.keys_nodup
  have distinctC : ((P.drain cSlice).map SliceNode.key).Nodup := by
    apply drain_keys
    rw [loadSlice_keys loadedC, Multiset.coe_nodup]
    exact cSliceDb.keys_nodup
  have targeted : ∀ tar ∈ targets (P.drain pSlice) (P.drain cSlice) u, Bounded t tar.1 := fun tar member =>
    bounded tar.1 (P.mem_drain.mp (List.mem_of_getElem? (mem_targets member).2))
  obtain ⟨s, ran, recorded⟩ := foldlM_recorded (r := r) distinctC targeted
    (fun tar member => (mem_targets member).2) (ranks_nodup _ _ u) (fun _ _ => List.not_mem_nil)
    (marked_init (P.drain pSlice)) (recorded_init _ _)
  have oneToOne := recorded.oneToOne distinctP distinctC
  refine ⟨s, ran, oneToOne, fun minP inferDb small => ?_⟩
  -- the entries hold loaded slices, whose segments were counted before
  have loaded : ∀ it ∈ s.segmentPairing.entries.map Prod.snd, it.1 ∈ P.drain cSlice ∧ it.2 ∈ P.drain pSlice := by
    intro it member
    apply oneToOne.loaded
    unfold State.matched
    rw [List.map_append]
    exact List.mem_append_right _ member
  have found : (matching Q log d minP s.segmentPairing).isSome := by
    refine foldlM_isSome (fun it member pairs => matchEntry_isSome small ?_ ?_ pairs) _
    · exact loadSlice_counted loadedC it.1 (P.mem_drain.mp (loaded it member).1)
    · exact loadSlice_counted loadedP it.2 (P.mem_drain.mp (loaded it member).2)
  obtain ⟨pairs, matched⟩ := Option.isSome_iff_exists.mp found
  refine ⟨pairs, matched, segmentPair_isSome_iff matched, fun entries done => ?_⟩
  obtain ⟨lengths, all⟩ := segmentPair_assigned small done fun e member => absurd member List.not_mem_nil
  rw [List.length_nil, List.length_map, Nat.zero_add] at lengths
  exact ⟨lengths, all⟩

end

def segmentQueue : PriorityQueue (SegmentNode ℚ) SegmentNode.less :=
  listQueue SegmentNode.less (fun n => decide_eq_false (lt_irrefl n.size)) fun n m l first second => by
    unfold SegmentNode.less at first second ⊢
    rw [decide_eq_true_iff] at first second ⊢
    exact first.trans second

def twoSlices : Databases :=
  let segDb : OrderedMap Bytes Bytes := [0, 1, 2, 3].foldl (fun m k =>
    m.put (u64 k) (List.replicate 6 (2 * k).toUInt8 ++ List.replicate 6 (2 * k + 1).toUInt8)) .empty
  ⟨segDb, segDb, [0, 1, 2, 3, 4, 5, 6, 7].foldl (fun m b => m.put (Fp.ofBytes (List.replicate 6 b)) (u64 8)) .empty⟩

def dyadicLog (x : ℚ) : ℚ := if x = 2 then 1 else if x = 1 / 2 then -1 else if x = 1 / 4 then -2 else if x = 1 / 8 then -3 else 0

def twoSlicesDb : OrderedMap Bytes Bytes := (OrderedMap.empty.put [1] (u64 0 ++ u64 1)).put [2] (u64 2 ++ u64 3)

def loadedTwoSlices : List (SliceNode ℚ) :=
  [([1], u64 0 ++ u64 1, [0, 1, 2, 3]), ([2], u64 2 ++ u64 3, [4, 5, 6, 7])].foldl (fun que e =>
    sliceQueue.push que ⟨e.1, 4, e.2.1, 2, e.2.2.foldl (fun m b => m.put (Fp.ofBytes (List.replicate 6 b)) 1) .empty, 32⟩) []

theorem loadSlice_twoSlices :
    loadSlice sliceQueue dyadicLog twoSlices.cSegDb twoSlices.chunkSize twoSlicesDb = some loadedTwoSlices := by
  -- the heap is a list, which decides its equality
  exact @of_decide_eq_true _ (@Option.instDecidableEq (List (SliceNode ℚ)) inferInstance _ _) (by decide +kernel)

theorem small_twoSlices : SmallSegments dyadicLog twoSlices (1 / 5) := by
  intro id c wide counted
  rw [countChunk_single wide] at counted
  cases found : twoSlices.cSegDb.get id with
  | none =>
    simp only [countSegment, found] at counted
    obtain rfl := Option.some.inj counted
    decide +kernel
  | some value =>
    have listed : (id, value) ∈ twoSlices.cSegDb.entries := (OrderedMap.get_eq_some _ _ _).mp found
    have all : ∀ e ∈ twoSlices.cSegDb.entries, (countSegment twoSlices.cSegDb twoSlices.chunkSize ⟨0, .empty, 0⟩ e.1).map
        (fun c => entropy dyadicLog c.countResult) = some 1 := by decide +kernel
    have one := all _ listed
    rw [counted] at one
    have value : entropy dyadicLog c.countResult = 1 := Option.some.inj one
    rw [value]
    unfold maximumEntropy
    norm_num

/-- The first turn marks what the second would choose. -/
theorem pair_oneToOne_twoSlices : ∃ s, pair sliceQueue loadedTwoSlices loadedTwoSlices 4000 2 (1 / 5) = some s ∧
    s.chosen = [(0, 0), (1, 1)] ∧ OneToOne (sliceQueue.drain loadedTwoSlices) (sliceQueue.drain loadedTwoSlices) s ∧
    ∃ pairs, matching segmentQueue dyadicLog twoSlices (1 / 5) s.segmentPairing = some pairs ∧
      ((segmentPair segmentQueue dyadicLog twoSlices (1 / 5) s.segmentPairing .empty).isSome ↔ CountersFit pairs .empty) ∧
      ∃ entries, segmentPair segmentQueue dyadicLog twoSlices (1 / 5) s.segmentPairing .empty = some entries ∧
        entries.1.map Entry.assigned = [[(0, 0), (1, 1)], [(0, 0), (1, 1)]] ∧
        entries.1.length = s.segmentPairing.entries.length ∧ ∀ e ∈ entries.1, Assigned e.cv e.pv e.assigned := by
  have bounded : ∀ n ∈ sliceQueue.contents loadedTwoSlices, Bounded (1 / 5 : ℚ) n := by
    intro n member
    have all : ∀ n ∈ loadedTwoSlices, n.sliceEntropy = 2 := by decide +kernel
    have entropy := all n (Multiset.mem_coe.mp member)
    unfold Bounded
    rw [entropy]
    unfold maximumEntropy
    norm_num
  obtain ⟨s, ran, oneToOne, segments⟩ := pair_oneToOne (Q := segmentQueue) (d := twoSlices) 4000 2 loadSlice_twoSlices
    loadSlice_twoSlices bounded
  obtain ⟨pairs, matched, ends, assigned⟩ := segments (1 / 5) .empty small_twoSlices
  have chosen : (pair sliceQueue loadedTwoSlices loadedTwoSlices 4000 2 (1 / 5)).map State.chosen =
      some [(0, 0), (1, 1)] := by decide +kernel
  have paired : ((pair sliceQueue loadedTwoSlices loadedTwoSlices 4000 2 (1 / 5)).bind fun s =>
      segmentPair segmentQueue dyadicLog twoSlices (1 / 5) s.segmentPairing .empty).map (fun r => r.1.map Entry.assigned) =
        some [[(0, 0), (1, 1)], [(0, 0), (1, 1)]] := by decide +kernel
  rw [ran] at chosen paired
  obtain ⟨entries, done, same⟩ := Option.map_eq_some_iff.mp paired
  exact ⟨s, ran, Option.some.inj chosen, oneToOne, pairs, matched, ends, entries, done, same, assigned entries done⟩

end EncryptedDedup.Pair
