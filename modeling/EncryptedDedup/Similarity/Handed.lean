import EncryptedDedup.Similarity.Segmentation
import EncryptedDedup.Similarity.Distances

/-!
# What `read_hashes` hands to `process_seg`

Whatever the sizes of the chunks, only the first segment can be empty.
-/

namespace EncryptedDedup.Similarity
open PSlice (segmentValue)

/-! ### The segments of a trace -/

def recorder : Program (List (List Node)) := ⟨fun _ segs => segs, fun sq segs => some (segs ++ [sq])⟩

/-- The queues that `process_seg` is called with, in order. -/
def handed (fp : Bytes) : Option (List (List Node)) := readHashes recorder [] fp

/-- The segments of `sq` and the chunks behind it, as the 64-bit counter `sq_size` cuts them. -/
def cuts : Nat → List Node → List Node → List (List Node)
  | _, sq, [] => [sq]
  | sqSize, sq, x :: items =>
    if segSize < (sqSize + x.size) % 2 ^ 64 then sq :: cuts (x.size % 2 ^ 64) [x] items
    else cuts ((sqSize + x.size) % 2 ^ 64) (sq ++ [x]) items

section
variable {σ : Type} {P : Program σ}

theorem foldlM_cuts (sqSize : Nat) (sq items : List Node) (s : σ) :
    (items.foldlM (readEntry P) ⟨sq, sqSize, sq.foldl (fun s x => P.push x s) s⟩ >>=
      fun w => P.processSeg w.sq w.side) = (cuts sqSize sq items).foldlM (runSeg P) s := by
  induction items generalizing sqSize sq s with
  | nil =>
    rw [cuts, List.foldlM_cons, runSeg]
    exact (bind_pure _).symm
  | cons x items ih =>
    rw [List.foldlM_cons, cuts]
    split
    · rename_i full
      rw [readEntry_full full, List.foldlM_cons, runSeg]
      cases P.processSeg sq (sq.foldl (fun s x => P.push x s) s) with
      | none => rfl
      | some s' => exact ih (x.size % 2 ^ 64) [x] s'
    · rename_i room
      rw [readEntry_room (Nat.not_lt.mp room)]
      have later := ih ((sqSize + x.size) % 2 ^ 64) (sq ++ [x]) s
      rw [List.foldl_append] at later
      exact later

theorem readHashes_cuts {fp : Bytes} {chunks : List Node} (read : trace fp = some chunks) (s : σ) :
    readHashes P s fp = (cuts 0 [] chunks).foldlM (runSeg P) s := by
  unfold readHashes
  rw [foldlM_readLine _ _ read]
  exact foldlM_cuts 0 [] chunks s

end

theorem foldlM_recorder (segs done : List (List Node)) : segs.foldlM (runSeg recorder) done = some (done ++ segs) := by
  have pushed : ∀ (seg : List Node) (s : List (List Node)), seg.foldl (fun s x => recorder.push x s) s = s :=
    fun seg _ => List.foldl_fixed seg
  induction segs generalizing done with
  | nil => rw [List.append_nil]; rfl
  | cons seg segs ih =>
    have step : runSeg recorder done seg = some (done ++ [seg]) := by
      unfold runSeg
      rw [pushed]
      rfl
    rw [List.foldlM_cons, step]
    exact (ih _).trans (by rw [List.append_assoc, List.singleton_append])

theorem handed_eq {fp : Bytes} {chunks : List Node} (read : trace fp = some chunks) :
    handed fp = some (cuts 0 [] chunks) := by
  unfold handed
  rw [readHashes_cuts read, foldlM_recorder, List.nil_append]

/-! ### Empty segments -/

/-- The first chunk starts a segment that is not handed on before. -/
def Starts (chunks : List Node) : Prop := ∃ first ∈ chunks.head?, first.size ≤ segSize

theorem cuts_filled {sqSize : Nat} {sq items : List Node} (filled : sq ≠ []) :
    ∀ seg ∈ cuts sqSize sq items, seg ≠ [] := by
  induction items generalizing sqSize sq with
  | nil =>
    unfold cuts
    exact List.forall_mem_singleton.mpr filled
  | cons x items ih =>
    unfold cuts
    split
    · exact List.forall_mem_cons.mpr ⟨filled, ih (List.cons_ne_nil x [])⟩
    · exact ih (List.append_ne_nil_of_right_ne_nil _ (List.cons_ne_nil x []))

theorem trace_size {fp : Bytes} {chunks : List Node} (read : trace fp = some chunks) :
    ∀ x ∈ chunks, x.size < 2 ^ 64 := by
  intro x member
  unfold trace at read
  obtain ⟨line, -, entry⟩ := mem_of_mapM read member
  unfold entryOf at entry
  obtain ⟨item, -, rfl⟩ := Option.map_eq_some_iff.mp entry
  dsimp only
  unfold toU64
  omega

theorem cuts_filled_iff {chunks : List Node} (words : ∀ x ∈ chunks, x.size < 2 ^ 64) :
    (∀ seg ∈ cuts 0 [] chunks, seg ≠ []) ↔ Starts chunks := by
  cases chunks with
  | nil =>
    unfold cuts
    constructor
    · intro filled
      exact absurd rfl (filled [] List.mem_cons_self)
    · rintro ⟨first, here, -⟩
      cases here
  | cons x items =>
    have word : (0 + x.size) % 2 ^ 64 = x.size := by
      rw [Nat.zero_add, Nat.mod_eq_of_lt (words x List.mem_cons_self)]
    unfold cuts
    rw [word]
    split
    · rename_i large
      constructor
      · intro filled
        exact absurd rfl (filled [] List.mem_cons_self)
      · rintro ⟨first, here, small⟩
        cases here
        exact absurd small (Nat.not_le.mpr large)
    · rename_i small
      constructor
      · intro _
        exact ⟨x, rfl, Nat.not_lt.mp small⟩
      · intro _
        rw [List.nil_append]
        exact cuts_filled (List.cons_ne_nil x [])

/-! ### Both programs -/

theorem segmentValue_ne_nil {seg : List Node} (filled : seg ≠ []) : segmentValue seg ≠ [] := by
  obtain ⟨x, rest, rfl⟩ := List.exists_cons_of_ne_nil filled
  have width := x.key.size_eq
  intro empty
  unfold segmentValue at empty
  rw [List.map_cons, List.flatten_cons] at empty
  rw [(List.append_eq_nil_iff.mp empty).1] at width
  cases width

/-- The values of the segment database have fingerprints in them. -/
def FilledValues (segDb : OrderedMap Bytes Bytes) : Prop := ∀ id value, segDb.get id = some value → value ≠ []

theorem FilledValues.put {segDb : OrderedMap Bytes Bytes} (values : FilledValues segDb) {seg : List Node}
    (filled : seg ≠ []) (id : Bytes) : FilledValues (segDb.put id (segmentValue seg)) := by
  intro id' value found
  rw [OrderedMap.get_put] at found
  split at found
  · obtain rfl := Option.some.inj found
    exact segmentValue_ne_nil filled
  · exact values id' value found

theorem keys_count (sq : List Node) (pMap : CSlice.Histogram) {k : Fp} :
    k ∈ (sq.foldl CSlice.count pMap).keys ↔ k ∈ pMap.keys ∨ k ∈ sq.map Node.key := by
  induction sq generalizing pMap with
  | nil => simp
  | cons x sq ih =>
    rw [List.foldl_cons, ih, CSlice.count, OrderedMap.mem_keys_put, List.map_cons, List.mem_cons]
    tauto

theorem count_filled {seg : List Node} (filled : seg ≠ []) :
    (seg.foldl CSlice.count .empty : CSlice.Histogram).entries ≠ [] := by
  obtain ⟨x, rest, rfl⟩ := List.exists_cons_of_ne_nil filled
  have known := (keys_count (x :: rest) .empty (k := x.key)).mpr (.inr (by simp))
  intro empty
  rw [OrderedMap.keys, empty] at known
  cases known

/-- No segment of the map for the clustering is empty. -/
def FilledSegments (countMap : OrderedMap Nat CSlice.Histogram) : Prop := ∀ e ∈ countMap.entries, e.2.entries ≠ []

theorem FilledSegments.insert {countMap : OrderedMap Nat CSlice.Histogram} (segments : FilledSegments countMap)
    {pMap : CSlice.Histogram} (filled : pMap.entries ≠ []) (seg : Nat) :
    FilledSegments (CSlice.insert countMap seg pMap) := by
  unfold CSlice.insert
  split
  · exact segments
  · intro e member
    have found := ((countMap.put seg pMap).get_eq_some e.1 e.2).mpr member
    rw [OrderedMap.get_put] at found
    split at found
    · rw [← Option.some.inj found]
      exact filled
    · exact segments e ((countMap.get_eq_some e.1 e.2).mp found)

theorem pslice_filled {segs : List (List Node)} (filled : ∀ seg ∈ segs, seg ≠ []) :
    ∃ p, segs.foldlM (runSeg PSlice.program) .init = some p ∧ FilledValues p.segDb := by
  have start : FilledValues PSlice.State.init.segDb := fun _ _ found => by cases found
  refine foldlM_keeps (R := fun _ (p : PSlice.State) => FilledValues p.segDb) ?_ [] filled start
  intro _ s seg filled values
  obtain ⟨s', ran, db, -⟩ := pslice_writes s seg filled
  refine ⟨s', ran, ?_⟩
  rw [db]
  exact values.put filled _

theorem cslice_filled {segs : List (List Node)} (filled : ∀ seg ∈ segs, seg ≠ []) :
    ∃ c, segs.foldlM (runSeg CSlice.program) .init = some c ∧ FilledValues c.segDb ∧ FilledSegments c.countMap := by
  have start : FilledValues CSlice.State.init.segDb ∧ FilledSegments CSlice.State.init.countMap :=
    ⟨fun _ _ found => (by cases found), fun _ member => (by cases member)⟩
  refine foldlM_keeps (R := fun _ (c : CSlice.State) => FilledValues c.segDb ∧ FilledSegments c.countMap) ?_ [] filled
    start
  rintro _ s seg filled ⟨values, segments⟩
  have pushed : seg.foldl (fun s x => CSlice.program.push x s) s = s := List.foldl_fixed seg
  exact ⟨_, by rw [runSeg, pushed]; rfl, values.put filled _, segments.insert (count_filled filled) _⟩

/-- The two programs are handed segments with chunks in them alone, so that the heap of `pslice` has a top, the
stored values are not empty, and `port2cluster` divides by no zero, exactly if the trace has a chunk and
its first chunk fits a segment. -/
theorem handed_filled_iff {fp : Bytes} {chunks : List Node} (read : trace fp = some chunks) :
    ((∃ segs, handed fp = some segs ∧ ∀ seg ∈ segs, seg ≠ []) ∧
      (∃ p, PSlice.readHashes .init fp = some p ∧ FilledValues p.segDb) ∧
      ∃ c, CSlice.readHashes .init fp = some c ∧ FilledValues c.segDb ∧
        ∀ e ∈ c.countMap.entries, ∀ e' ∈ c.countMap.entries, (CSlice.merge e.2 e'.2).entries.length ≠ 0) ↔
      Starts chunks := by
  rw [← cuts_filled_iff (trace_size read)]
  constructor
  · rintro ⟨⟨segs, made, filled⟩, -, -⟩
    rw [handed_eq read] at made
    cases made
    exact filled
  · intro filled
    obtain ⟨p, ran, values⟩ := pslice_filled filled
    obtain ⟨c, ran', values', segments⟩ := cslice_filled filled
    refine ⟨⟨_, handed_eq read, filled⟩, ⟨p, (readHashes_cuts read _).trans ran, values⟩, c,
      (readHashes_cuts read _).trans ran', values', fun e member e' _ => ?_⟩
    have inhabited := CSlice.fingerprints_nonempty (segments e member)
    rw [CSlice.length_merge]
    exact (inhabited.mono Finset.subset_union_left).card_pos.ne'

theorem handed_filled_threeChunks :
    ((∃ segs, handed threeChunks = some segs ∧ ∀ seg ∈ segs, seg ≠ []) ∧
      (∃ p, PSlice.readHashes .init threeChunks = some p ∧ FilledValues p.segDb) ∧
      ∃ c, CSlice.readHashes .init threeChunks = some c ∧ FilledValues c.segDb ∧
        ∀ e ∈ c.countMap.entries, ∀ e' ∈ c.countMap.entries, (CSlice.merge e.2 e'.2).entries.length ≠ 0) ↔
      Starts [⟨Fp.ofBytes [1], 5000000⟩, ⟨Fp.ofBytes [2], 3000000⟩, ⟨Fp.ofBytes [3], 9000000⟩] :=
  handed_filled_iff (by decide +kernel)

def noChunks : Bytes := chars "Chunk Hash\n".toList

def largeChunk : Bytes := chars "Chunk Hash\n1:0:0:0:0:0\t9000000\t10\n".toList

theorem handed_empty : (trace noChunks = some [] ∧ handed noChunks = some [[]] ∧
      PSlice.readHashes .init noChunks = none) ∧
    trace largeChunk = some [⟨Fp.ofBytes [1], 9000000⟩] ∧
      handed largeChunk = some [[], [⟨Fp.ofBytes [1], 9000000⟩]] ∧ PSlice.readHashes .init largeChunk = none ∧
      ((CSlice.readHashes .init largeChunk).map fun c => CSlice.port2cluster c.segCount c.countMap).map
        (fun dist => dist.get 0) = some (some none) := by
  decide +kernel

end EncryptedDedup.Similarity
