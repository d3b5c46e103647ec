import EncryptedDedup.Similarity.CSlice
import EncryptedDedup.Lib.Fallible

/-!
# The segments of `pslice` and `cslice`

Both programs store the segments that the chunk sizes alone determine.
-/

namespace EncryptedDedup.Similarity
open LocalityCount (isTitle)
open PSlice (segmentValue)

/-! ### The segment database -/

/-- The database has the segments under the ids from 0 on, and nothing else. -/
structure Stored (segs : List (List Node)) (segDb : OrderedMap Bytes Bytes) (segCount : Nat) : Prop where
  count : segCount = segs.length
  values : (List.range segCount).map (fun id => segDb.get (u64 id)) = segs.map fun seg => some (segmentValue seg)
  ids : ∀ k, k ∈ segDb.keys ↔ ∃ id < segCount, k = u64 id

theorem stored_nil : Stored [] .empty 0 := by
  refine ⟨rfl, rfl, fun k => ⟨fun member => absurd member List.not_mem_nil, ?_⟩⟩
  rintro ⟨id, below, -⟩
  exact absurd below (Nat.not_lt_zero id)

theorem Stored.put {segs : List (List Node)} {segDb : OrderedMap Bytes Bytes} {segCount : Nat}
    (stored : Stored segs segDb segCount) (small : segCount < 2 ^ 64) (seg : List Node) :
    Stored (segs ++ [seg]) (segDb.put (u64 segCount) (segmentValue seg)) (segCount + 1) := by
  refine ⟨by rw [stored.count, List.length_append, List.length_singleton], ?_, fun k => ?_⟩
  · rw [List.range_succ, List.map_append, List.map_append, ← stored.values, List.map_singleton, List.map_singleton,
      OrderedMap.get_put_same]
    congr 1
    apply List.map_congr_left
    intro id member
    have below := List.mem_range.mp member
    apply OrderedMap.get_put_other
    intro same
    exact absurd (u64_inj (by omega) small same) (by omega)
  · rw [OrderedMap.mem_keys_put, stored.ids]
    constructor
    · rintro (rfl | ⟨id, below, rfl⟩)
      · exact ⟨segCount, Nat.lt_succ_self _, rfl⟩
      · exact ⟨id, by omega, rfl⟩
    · rintro ⟨id, below, rfl⟩
      rcases Nat.lt_succ_iff_lt_or_eq.mp below with before | rfl
      · exact Or.inr ⟨id, before, rfl⟩
      · exact Or.inl rfl

/-! ### A run -/

section
variable {σ : Type} {P : Program σ} {segDb : σ → OrderedMap Bytes Bytes} {segCount : σ → Nat}

/-- A segment with chunks in it goes into the segment database, under the next id. -/
def Writes (P : Program σ) (segDb : σ → OrderedMap Bytes Bytes) (segCount : σ → Nat) : Prop :=
  ∀ s seg, seg ≠ [] → ∃ s', runSeg P s seg = some s' ∧
    segDb s' = (segDb s).put (u64 (segCount s)) (segmentValue seg) ∧ segCount s' = segCount s + 1

theorem foldlM_keeps {R : List (List Node) → σ → Prop}
    (step : ∀ done s seg, seg ≠ [] → R done s → ∃ s', runSeg P s seg = some s' ∧ R (done ++ [seg]) s')
    (done : List (List Node)) {segs : List (List Node)} {s : σ} (filled : ∀ seg ∈ segs, seg ≠ []) (start : R done s) :
    ∃ s', segs.foldlM (runSeg P) s = some s' ∧ R (done ++ segs) s' := by
  induction segs generalizing done s with
  | nil => exact ⟨s, rfl, by rwa [List.append_nil]⟩
  | cons seg segs ih =>
    obtain ⟨here, later⟩ := List.forall_mem_cons.mp filled
    obtain ⟨s₁, ran, kept⟩ := step done s seg here start
    obtain ⟨s', finished, all⟩ := ih (done ++ [seg]) later kept
    refine ⟨s', ?_, by rwa [List.append_cons]⟩
    rw [List.foldlM_cons, ran]
    exact finished

theorem foldlM_stored (writes : Writes P segDb segCount) {segs done : List (List Node)} {s : σ}
    (filled : ∀ seg ∈ segs, seg ≠ []) (stored : Stored done (segDb s) (segCount s))
    (small : done.length + segs.length ≤ 2 ^ 64) :
    ∃ s', segs.foldlM (runSeg P) s = some s' ∧ Stored (done ++ segs) (segDb s') (segCount s') := by
  induction segs generalizing done s with
  | nil => exact ⟨s, rfl, by rwa [List.append_nil]⟩
  | cons seg segs ih =>
    obtain ⟨here, later⟩ := List.forall_mem_cons.mp filled
    obtain ⟨s₁, ran, db, count⟩ := writes s seg here
    rw [List.length_cons] at small
    have next := stored.put (by rw [stored.count]; omega) seg
    rw [← db, ← count] at next
    obtain ⟨s', finished, all⟩ := ih later next (by rw [List.length_append, List.length_singleton]; omega)
    refine ⟨s', ?_, by rwa [List.append_cons]⟩
    rw [List.foldlM_cons, ran]
    exact finished

theorem length_trace_le {fp : Bytes} {chunks : List Node} (read : trace fp = some chunks) :
    chunks.length ≤ fp.length := by
  have lines := length_bufferLines_le 256 fp
  have kept := List.length_filter_le (fun line => !isTitle line) (bufferLines 256 fp)
  have same : chunks.length = ((bufferLines 256 fp).filter fun line => !isTitle line).length := by
    exact length_mapM read
  omega

theorem readHashes_stored (writes : Writes P segDb segCount) {fp : Bytes} {first : Node} {rest : List Node} {s : σ}
    (read : trace fp = some (first :: rest)) (small : ∀ x ∈ first :: rest, x.size < 2 ^ 31)
    (fits : first.size ≤ segSize) (size : fp.length < 2 ^ 63) (start : Stored [] (segDb s) (segCount s)) :
    ∃ s', readHashes P s fp = some s' ∧
      Stored (segments segSize Node.size [first] rest) (segDb s') (segCount s') := by
  have few := @length_segments_le _ segSize Node.size [first] rest
  have lines := length_trace_le read
  rw [List.length_cons] at lines
  rw [readHashes_segments read small fits]
  exact foldlM_stored writes (packing_cons first rest).filled start (by rw [List.length_nil]; omega)

end

theorem pslice_writes : Writes PSlice.program PSlice.State.segDb PSlice.State.segCount := by
  have pushed : ∀ (seg : List Node) (s : PSlice.State),
      (seg.foldl (fun s x => PSlice.push x s) s).segDb = s.segDb ∧
      (seg.foldl (fun s x => PSlice.push x s) s).segCount = s.segCount ∧
      (s.pq.isSome ∨ seg ≠ [] → (seg.foldl (fun s x => PSlice.push x s) s).pq.isSome) := by
    intro seg
    induction seg with
    | nil => exact fun s => ⟨rfl, rfl, fun queued => queued.resolve_right (fun none => none rfl)⟩
    | cons x seg ih =>
      intro s
      obtain ⟨db, count, queued⟩ := ih (PSlice.push x s)
      have step : (PSlice.push x s).segDb = s.segDb ∧ (PSlice.push x s).segCount = s.segCount ∧
          (PSlice.push x s).pq.isSome := by
        unfold PSlice.push
        cases here : s.pq with
        | none => exact ⟨rfl, rfl, rfl⟩
        | some max =>
          dsimp only
          split
          · exact ⟨rfl, rfl, rfl⟩
          · exact ⟨rfl, rfl, by rw [here]; rfl⟩
      exact ⟨db.trans step.1, count.trans step.2.1, fun _ => queued (Or.inl step.2.2)⟩
  intro s seg filled
  obtain ⟨db, count, queued⟩ := pushed seg s
  obtain ⟨core, top⟩ := Option.isSome_iff_exists.mp (queued (Or.inr filled))
  refine ⟨_, by rw [runSeg]; exact congrArg (Option.map _) top, ?_, ?_⟩
  · dsimp only
    split <;> exact congrArg₂ (fun m n => OrderedMap.put m (u64 n) (segmentValue seg)) db count
  · dsimp only
    split <;> exact congrArg Nat.succ count

theorem cslice_writes : Writes CSlice.program CSlice.State.segDb CSlice.State.segCount := by
  intro s seg _
  have pushed : seg.foldl (fun s x => CSlice.program.push x s) s = s := List.foldl_fixed seg
  exact ⟨_, by rw [runSeg, pushed]; rfl, rfl, rfl⟩

/-! ### Both programs -/

def BothStore (fp : Bytes) (segs : List (List Node)) : Prop :=
  (∃ p, PSlice.readHashes .init fp = some p ∧ Stored segs p.segDb p.segCount) ∧
    ∃ c, CSlice.readHashes .init fp = some c ∧ Stored segs c.segDb c.segCount

theorem bothStore_segments {fp : Bytes} {first : Node} {rest : List Node} (read : trace fp = some (first :: rest))
    (small : ∀ x ∈ first :: rest, x.size < 2 ^ 31) (fits : first.size ≤ segSize) (size : fp.length < 2 ^ 63) :
    BothStore fp (segments segSize Node.size [first] rest) :=
  ⟨readHashes_stored pslice_writes read small fits size stored_nil,
    readHashes_stored cslice_writes read small fits size stored_nil⟩

/-- Both programs store one packing of the chunks, whose values put together are the fingerprints of
the trace, and any other trace with the same chunk sizes is cut at the same places. -/
theorem readHashes_packing {fp : Bytes} {first : Node} {rest : List Node} (read : trace fp = some (first :: rest))
    (small : ∀ x ∈ first :: rest, x.size < 2 ^ 31) (fits : first.size ≤ segSize) (size : fp.length < 2 ^ 63) :
    ∃ segs, Packing segSize Node.size (first :: rest) segs ∧ BothStore fp segs ∧
      (segs.map segmentValue).flatten = segmentValue (first :: rest) ∧
      ∀ fp' chunks, trace fp' = some chunks → chunks.map Node.size = (first :: rest).map Node.size →
        fp'.length < 2 ^ 63 → ∃ segs', segs'.flatten = chunks ∧ BothStore fp' segs' ∧
          segs'.map List.length = segs.map List.length := by
  have packing := @packing_cons _ segSize Node.size first rest
  refine ⟨segments segSize Node.size [first] rest, packing, bothStore_segments read small fits size, ?_, ?_⟩
  · rw [← packing.flatten, segmentValue, List.map_flatten, List.flatten_flatten, List.map_map]
    rfl
  · intro fp' chunks read' same size'
    obtain ⟨first', rest', rfl⟩ := List.exists_cons_of_length_pos (l := chunks) (by
      have lengths := congrArg List.length same
      rw [List.length_map, List.length_map, List.length_cons] at lengths
      omega)
    obtain ⟨sameFirst, sameRest⟩ := List.cons.inj same
    have small' : ∀ x ∈ first' :: rest', x.size < 2 ^ 31 := by
      intro x member
      have inside : x.size ∈ (first :: rest).map Node.size := same ▸ List.mem_map_of_mem member
      obtain ⟨y, known, equal⟩ := List.mem_map.mp inside
      rw [← equal]
      exact small y known
    refine ⟨segments segSize Node.size [first'] rest', (packing_cons first' rest').flatten,
      bothStore_segments read' small' (sameFirst.trans_le fits) size', length_segments ?_ sameRest⟩
    rw [List.map_singleton, List.map_singleton, sameFirst]

def threeChunks : Bytes :=
  chars "Chunk Hash\n1:0:0:0:0:0\t5000000\t10\n2:0:0:0:0:0\t3000000\t10\n3:0:0:0:0:0\t9000000\t10\n".toList

theorem readHashes_packing_threeChunks :
    ∃ segs, Packing segSize Node.size
        [⟨Fp.ofBytes [1], 5000000⟩, ⟨Fp.ofBytes [2], 3000000⟩, ⟨Fp.ofBytes [3], 9000000⟩] segs ∧
      BothStore threeChunks segs ∧
      (segs.map segmentValue).flatten =
        segmentValue [⟨Fp.ofBytes [1], 5000000⟩, ⟨Fp.ofBytes [2], 3000000⟩, ⟨Fp.ofBytes [3], 9000000⟩] ∧
      ∀ fp' chunks, trace fp' = some chunks → chunks.map Node.size = [5000000, 3000000, 9000000] →
        fp'.length < 2 ^ 63 → ∃ segs', segs'.flatten = chunks ∧ BothStore fp' segs' ∧
          segs'.map List.length = segs.map List.length :=
  readHashes_packing (by decide +kernel) (by decide) (by decide) (by decide +kernel)

/-- A chunk of 8 bytes and one of 2^32 - 8, which is read as -8. -/
def hugeSecond : Bytes := chars "Chunk Hash\n1:0:0:0:0:0\t8\t10\n2:0:0:0:0:0\t4294967288\t10\n".toList

/-- The size of the segment wraps to zero, and both chunks are in it. -/
theorem hugeSecond_together : trace hugeSecond = some [⟨Fp.ofBytes [1], 8⟩, ⟨Fp.ofBytes [2], 2 ^ 64 - 8⟩] ∧
    ∀ weight : Node → Nat, segSize < weight ⟨Fp.ofBytes [2], 2 ^ 64 - 8⟩ →
      ¬ ∃ segs, Packing segSize weight [⟨Fp.ofBytes [1], 8⟩, ⟨Fp.ofBytes [2], 2 ^ 64 - 8⟩] segs ∧
        BothStore hugeSecond segs := by
  refine ⟨by decide +kernel, ?_⟩
  rintro weight heavy ⟨segs, packing, ⟨p, finished, stored⟩, -⟩
  have one : (PSlice.readHashes .init hugeSecond).map PSlice.State.segCount = some 1 := by decide +kernel
  rw [finished, Option.map_some, Option.some_inj, stored.count] at one
  obtain ⟨seg, rfl⟩ := List.length_eq_one_iff.mp one
  have whole := packing.flatten
  rw [List.flatten_singleton] at whole
  subst whole
  rcases packing.fits _ List.mem_cons_self with light | single
  · rw [weightOf, List.map_cons, List.map_singleton, List.sum_cons, List.sum_singleton] at light
    omega
  · exact absurd single (by decide)

end EncryptedDedup.Similarity
