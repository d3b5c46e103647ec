import EncryptedDedup.Similarity.Handed
import EncryptedDedup.Lib.Fibres
import Mathlib.Order.Bounds.Basic

/-!
# The slices

The slice databases of both programs have every segment once: `pslice` under its minimum fingerprint, `cslice`
under the label that the clustering gives it.
-/

namespace EncryptedDedup.Similarity

/-! ### Minimum fingerprints -/

/-- The minimum fingerprint of a segment, in the order of `memcmp`. -/
def IsMinimum (seg : List Node) (k : Fp) : Prop := IsLeast {x | x ∈ seg.map Node.key} k

def queued (pq : Option Node) (entry : Node) : Option Node :=
  match pq with
  | none => some entry
  | some max => if entry.key < max.key then some entry else some max

theorem foldl_push (seg : List Node) (s : PSlice.State) :
    seg.foldl (fun s x => PSlice.program.push x s) s = { s with pq := seg.foldl queued s.pq } := by
  induction seg generalizing s with
  | nil => rfl
  | cons x seg ih =>
    have step : PSlice.program.push x s = { s with pq := queued s.pq x } := by
      show PSlice.push x s = _
      unfold PSlice.push queued
      cases here : s.pq with
      | none => rfl
      | some max =>
        dsimp only
        split
        · rfl
        · rw [← here]
    rw [List.foldl_cons, step, ih, List.foldl_cons]

theorem queued_least (seg : List Node) (x : Node) :
    ∃ core, seg.foldl queued (some x) = some core ∧ IsMinimum (x :: seg) core.key := by
  induction seg using List.reverseRecOn with
  | nil =>
    refine ⟨x, rfl, List.mem_cons_self, fun k member => ?_⟩
    rw [List.mem_singleton.mp member]
  | append_singleton seg y ih =>
    obtain ⟨core, top, known, least⟩ := ih
    have split : ∀ k ∈ (x :: (seg ++ [y])).map Node.key, k ∈ (x :: seg).map Node.key ∨ k = y.key := by
      intro k member
      rw [← List.cons_append, List.map_append, List.mem_append] at member
      exact member.imp_right List.mem_singleton.mp
    have before : ∀ k ∈ (x :: seg).map Node.key, k ∈ (x :: (seg ++ [y])).map Node.key := by
      intro k member
      rw [← List.cons_append, List.map_append]
      exact List.mem_append_left _ member
    rw [List.foldl_append, List.foldl_cons, List.foldl_nil, top]
    unfold queued
    dsimp only
    by_cases less : y.key < core.key
    · rw [if_pos less]
      refine ⟨y, rfl, ?_, fun k member => ?_⟩
      · exact List.mem_map_of_mem (List.mem_cons_of_mem x (List.mem_append_right seg List.mem_cons_self))
      · rcases split k member with earlier | rfl
        · exact less.le.trans (least earlier)
        · exact le_refl _
    · rw [if_neg less]
      refine ⟨core, rfl, before _ known, fun k member => ?_⟩
      rcases split k member with earlier | rfl
      · exact least earlier
      · exact not_lt.mp less

/-! ### `pslice` -/

theorem runSeg_pslice {seg : List Node} (filled : seg ≠ []) {s : PSlice.State} (fresh : s.pq = none) :
    ∃ s' k, runSeg PSlice.program s seg = some s' ∧ IsMinimum seg k ∧ s'.pq = none ∧ s'.segCount = s.segCount + 1 ∧
      s'.sliceDb = appendId s.sliceDb k s.segCount ∧
      s'.sliceCount = if k ∈ s.sliceDb.keys then s.sliceCount else s.sliceCount + 1 := by
  obtain ⟨x, rest, rfl⟩ := List.exists_cons_of_ne_nil filled
  obtain ⟨core, top, least⟩ := queued_least rest x
  have pushed : (x :: rest).foldl queued s.pq = some core := by
    rw [fresh]
    exact top
  unfold runSeg
  rw [foldl_push, pushed]
  refine ⟨_, core.key, rfl, least, ?_⟩
  unfold appendId
  dsimp only
  cases found : s.sliceDb.get core.key with
  | none => exact ⟨rfl, rfl, rfl, (if_neg (OrderedMap.get_eq_none.mp found)).symm⟩
  | some value => exact ⟨rfl, rfl, rfl, (if_pos (OrderedMap.mem_keys.mpr ⟨value, found⟩)).symm⟩

structure SlicedTo (segs : List (List Node)) (s : PSlice.State) : Prop where
  fresh : s.pq = none
  count : s.segCount = segs.length
  slices : s.sliceCount = s.sliceDb.entries.length
  grouped : ∃ minima, List.Forall₂ IsMinimum segs minima ∧ Grouped minima s.sliceDb

theorem slicedTo_init : SlicedTo [] PSlice.State.init := ⟨rfl, rfl, rfl, [], .nil, grouped_nil⟩

theorem length_appendId {κ : Type} [LinearOrder κ] (db : OrderedMap κ Bytes) (k : κ) (id : Nat) :
    (appendId db k id).entries.length = if k ∈ db.keys then db.entries.length else db.entries.length + 1 := by
  unfold appendId
  split
  · rename_i value found
    have known := OrderedMap.mem_keys.mpr ⟨value, found⟩
    rw [if_pos known, OrderedMap.length_put_old known]
  · rename_i missing
    have absent := OrderedMap.get_eq_none.mp missing
    rw [if_neg absent, OrderedMap.length_put_new absent]

theorem runSeg_slicedTo (done : List (List Node)) (s : PSlice.State) (seg : List Node) (filled : seg ≠ [])
    (sliced : SlicedTo done s) : ∃ s', runSeg PSlice.program s seg = some s' ∧ SlicedTo (done ++ [seg]) s' := by
  obtain ⟨minima, least, grouped⟩ := sliced.grouped
  obtain ⟨s', k, ran, minimum, fresh, count, db, slices⟩ := runSeg_pslice filled sliced.fresh
  have same : s.segCount = minima.length := sliced.count.trans least.length_eq
  refine ⟨s', ran, fresh, ?_, ?_, minima ++ [k], List.rel_append least (.cons minimum .nil), ?_⟩
  · rw [count, sliced.count, List.length_append, List.length_singleton]
  · rw [db, length_appendId, slices, sliced.slices]
  · rw [db, same]
    exact grouped.append k

/-- A slice has the segments of one minimum fingerprint, in increasing order, and every segment is in one slice. -/
structure Sliced (segs : List (List Node)) (s : PSlice.State) : Prop where
  count : s.segCount = segs.length
  partition : (s.sliceDb.entries.flatMap fun e => idsOf e.2).Perm (List.range s.segCount)
  keyed : ∀ key value, s.sliceDb.get key = some value → value = (idsOf value).flatMap u64 ∧
    ∀ id, id ∈ idsOf value ↔ ∃ seg, segs[id]? = some seg ∧ IsMinimum seg key
  increasing : ∀ key value, s.sliceDb.get key = some value → (idsOf value).Pairwise (· < ·)
  slices : s.sliceCount = s.sliceDb.entries.length

theorem IsMinimum.unique {seg : List Node} {k j : Fp} (first : IsMinimum seg k) (second : IsMinimum seg j) : k = j :=
  IsLeast.unique first second

theorem SlicedTo.sliced {segs : List (List Node)} {s : PSlice.State} (sliced : SlicedTo segs s)
    (few : segs.length ≤ 2 ^ 64) : Sliced segs s := by
  obtain ⟨minima, least, grouped⟩ := sliced.grouped
  have lengths := least.length_eq
  refine ⟨sliced.count, ?_, fun key value found => ?_, fun key value found => ?_, sliced.slices⟩
  · rw [sliced.count, lengths]
    exact grouped.partition (by omega)
  · refine ⟨grouped.whole (by omega) found, fun id => ?_⟩
    rw [grouped.mem_ids (by omega) found]
    constructor
    · intro here
      obtain ⟨below, rfl⟩ := List.getElem?_eq_some_iff.mp here
      refine ⟨segs[id], List.getElem?_eq_getElem (by omega), ?_⟩
      exact List.Forall₂.get least (by omega) below
    · rintro ⟨seg, here, minimum⟩
      obtain ⟨below, rfl⟩ := List.getElem?_eq_some_iff.mp here
      have other : IsMinimum segs[id] minima[id] := List.Forall₂.get least below (by omega)
      rw [List.getElem?_eq_getElem (by omega), other.unique minimum]
  · exact grouped.increasing (by omega) found

/-! ### `cslice` -/

/-- The map for the clustering has the segments under their ids. -/
structure Numbered (segs : List (List Node)) (s : CSlice.State) : Prop where
  count : s.segCount = segs.length
  ids : s.countMap.keys = List.range s.segCount

theorem keys_insert {countMap : OrderedMap Nat CSlice.Histogram} {n : Nat} (ids : countMap.keys = List.range n)
    (pMap : CSlice.Histogram) : (CSlice.insert countMap n pMap).keys = List.range (n + 1) := by
  have absent : n ∉ countMap.keys := by
    rw [ids]
    exact List.not_mem_range_self
  have below : ∀ e ∈ countMap.entries, e.1 < n := by
    intro e member
    have known : e.1 ∈ countMap.keys := List.mem_map_of_mem member
    rw [ids] at known
    exact List.mem_range.mp known
  unfold CSlice.insert
  rw [if_neg (mt OrderedMap.contains_iff.mp absent), OrderedMap.keys, OrderedMap.entries_put_last below, List.map_append,
    List.range_succ, ← ids]
  rfl

theorem foldlM_numbered (segs done : List (List Node)) {s : CSlice.State} (numbered : Numbered done s) :
    ∃ s', segs.foldlM (runSeg CSlice.program) s = some s' ∧ Numbered (done ++ segs) s' := by
  induction segs generalizing done s with
  | nil => exact ⟨s, rfl, by rwa [List.append_nil]⟩
  | cons seg segs ih =>
    have pushed : seg.foldl (fun s x => CSlice.program.push x s) s = s := List.foldl_fixed seg
    obtain ⟨s₁, ran, count, ids⟩ : ∃ s₁, runSeg CSlice.program s seg = some s₁ ∧ s₁.segCount = s.segCount + 1 ∧
        s₁.countMap.keys = List.range s₁.segCount :=
      ⟨_, by rw [runSeg, pushed]; rfl, rfl, keys_insert numbered.ids _⟩
    obtain ⟨s', finished, all⟩ := ih (done ++ [seg])
      ⟨by rw [count, numbered.count, List.length_append, List.length_singleton], ids⟩
    refine ⟨s', ?_, by rwa [List.append_cons]⟩
    rw [List.foldlM_cons, ran]
    exact finished

theorem foldl_appendId {κ : Type} [LinearOrder κ] (more : List κ) {labels : List κ} {db : OrderedMap κ Bytes}
    (grouped : Grouped labels db) :
    Grouped (labels ++ more)
      (((List.range' labels.length more.length).zip more).foldl (fun db e => appendId db e.2 e.1) db) := by
  induction more generalizing labels db with
  | nil => rwa [List.append_nil]
  | cons k more ih =>
    rw [List.length_cons, List.range'_succ, List.zip_cons_cons, List.foldl_cons, List.append_cons]
    have next := ih (grouped.append k)
    rwa [List.length_append, List.length_singleton] at next

theorem port2slice_grouped {countMap : OrderedMap Nat CSlice.Histogram} {cidx : List Int}
    (ids : countMap.keys = List.range cidx.length) :
    Grouped (cidx.map CSlice.sliceKey) (CSlice.port2slice countMap cidx .empty) := by
  have grouped := foldl_appendId (cidx.map CSlice.sliceKey) grouped_nil
  have pairs : (List.range' 0 (cidx.map CSlice.sliceKey).length).zip (cidx.map CSlice.sliceKey) =
      (countMap.entries.zip cidx).map fun e => (e.1.1, CSlice.sliceKey e.2) := by
    rw [List.length_map, ← List.range_eq_range', ← ids, OrderedMap.keys, List.zip_map]
    rfl
  rw [List.nil_append, List.length_nil, pairs, List.foldl_map] at grouped
  exact grouped

/-- Every segment is in the slice of its label, and in no other. -/
structure SlicedBy (cidx : List Int) (sliceDb : OrderedMap Bytes Bytes) : Prop where
  partition : (sliceDb.entries.flatMap fun e => idsOf e.2).Perm (List.range cidx.length)
  keyed : ∀ k, k ∈ sliceDb.keys ↔ ∃ label ∈ cidx, k = CSlice.sliceKey label
  fibres : ∀ label ∈ cidx, ∃ value, sliceDb.get (CSlice.sliceKey label) = some value ∧
    value = (idsOf value).flatMap u64 ∧ ∀ id, id ∈ idsOf value ↔ cidx[id]? = some label

/-- The labels differ in their low 32 bits. -/
def Distinguished (cidx : List Int) : Prop := ∀ l ∈ cidx, ∀ l' ∈ cidx, l % 2 ^ 32 = l' % 2 ^ 32 → l = l'

theorem sliceKey_eq_iff {l l' : Int} : CSlice.sliceKey l = CSlice.sliceKey l' ↔ l % 2 ^ 32 = l' % 2 ^ 32 := by
  have range : (256 ^ 4 : Nat) = 2 ^ 32 := by decide
  unfold CSlice.sliceKey
  constructor
  · intro same
    have words := congrArg ofLE same
    rw [ofLE_toLE, ofLE_toLE, range] at words
    omega
  · intro same
    rw [same]

theorem slicedBy_iff {cidx : List Int} {db : OrderedMap Bytes Bytes} (few : cidx.length ≤ 2 ^ 64)
    (grouped : Grouped (cidx.map CSlice.sliceKey) db) : SlicedBy cidx db ↔ Distinguished cidx := by
  have few' : (cidx.map CSlice.sliceKey).length ≤ 2 ^ 64 := by rwa [List.length_map]
  have slice : ∀ label ∈ cidx, ∃ value, db.get (CSlice.sliceKey label) = some value ∧
      value = (idsOf value).flatMap u64 ∧
      ∀ id, id ∈ idsOf value ↔ ∃ l, cidx[id]? = some l ∧ CSlice.sliceKey l = CSlice.sliceKey label := by
    intro label member
    have found := grouped (CSlice.sliceKey label)
    rw [if_pos (List.mem_map_of_mem member)] at found
    refine ⟨_, found, grouped.whole few' found, fun id => ?_⟩
    rw [grouped.mem_ids few' found, List.getElem?_map, Option.map_eq_some_iff]
  constructor
  · intro sliced l member l' member' same
    obtain ⟨value, found, -, shared⟩ := slice l member
    obtain ⟨value', found', -, own⟩ := sliced.fibres l member
    obtain rfl := Option.some.inj (found.symm.trans found')
    obtain ⟨id, below, here⟩ := List.getElem_of_mem member'
    have there : cidx[id]? = some l' := by rw [List.getElem?_eq_getElem below, here]
    have inside := (shared id).mpr ⟨l', there, sliceKey_eq_iff.mpr same.symm⟩
    exact Option.some.inj (((own id).mp inside).symm.trans there)
  · intro apart
    refine ⟨?_, fun k => ?_, fun label member => ?_⟩
    · have all := grouped.partition few'
      rwa [List.length_map] at all
    · rw [grouped.keys, List.mem_map]
      exact exists_congr fun l => and_congr_right fun _ => eq_comm
    · obtain ⟨value, found, whole, shared⟩ := slice label member
      refine ⟨value, found, whole, fun id => (shared id).trans ?_⟩
      constructor
      · rintro ⟨l, here, same⟩
        rwa [apart l (List.mem_of_getElem? here) label member (sliceKey_eq_iff.mp same)] at here
      · exact fun here => ⟨label, here, rfl⟩

/-! ### Both programs -/

theorem length_cuts_le (sqSize : Nat) (sq items : List Node) : (cuts sqSize sq items).length ≤ items.length + 1 := by
  induction items generalizing sqSize sq with
  | nil => exact Nat.le_refl _
  | cons x items ih =>
    unfold cuts
    split
    · exact Nat.succ_le_succ (ih _ [x])
    · exact (ih _ _).trans (Nat.le_succ _)

/-- `pslice` makes the slices of the minimum fingerprints exactly if it is handed no empty segment; `port2slice` makes
the slices of the labels exactly if they differ in what it keeps of them. -/
theorem slices_iff {fp : Bytes} {chunks : List Node} (read : trace fp = some chunks) (size : fp.length < 2 ^ 63) :
    ((∃ segs p, handed fp = some segs ∧ PSlice.readHashes .init fp = some p ∧ Sliced segs p) ↔ Starts chunks) ∧
      ∃ segs c, handed fp = some segs ∧ CSlice.readHashes .init fp = some c ∧ c.segCount = segs.length ∧
        ∀ cidx : List Int, cidx.length = c.segCount →
          (SlicedBy cidx (CSlice.port2slice c.countMap cidx .empty) ↔ Distinguished cidx) := by
  have lines := length_trace_le read
  have few := length_cuts_le 0 [] chunks
  constructor
  · constructor
    · rintro ⟨segs, p, made, ran, sliced⟩
      rw [← cuts_filled_iff (trace_size read)]
      rw [handed_eq read] at made
      obtain rfl := Option.some.inj made
      rintro seg member rfl
      obtain ⟨id, below, here⟩ := List.getElem_of_mem member
      have inside : id ∈ List.range p.segCount := List.mem_range.mpr (by rw [sliced.count]; exact below)
      obtain ⟨e, known, found⟩ := List.mem_flatMap.mp (sliced.partition.mem_iff.mpr inside)
      have stored := (p.sliceDb.get_eq_some e.1 e.2).mpr known
      obtain ⟨seg, same, minimum⟩ := ((sliced.keyed e.1 e.2 stored).2 id).mp found
      rw [List.getElem?_eq_getElem below, here] at same
      obtain rfl := Option.some.inj same
      exact absurd minimum.1 List.not_mem_nil
    · intro starts
      have filled := (cuts_filled_iff (trace_size read)).mpr starts
      obtain ⟨p, ran, sliced⟩ := foldlM_keeps runSeg_slicedTo [] filled slicedTo_init
      exact ⟨_, p, handed_eq read, (readHashes_cuts read _).trans ran, sliced.sliced (by rw [List.nil_append]; omega)⟩
  · obtain ⟨c, ran, numbered⟩ := foldlM_numbered (cuts 0 [] chunks) [] (s := .init) ⟨rfl, rfl⟩
    refine ⟨_, c, handed_eq read, (readHashes_cuts read _).trans ran, numbered.count, fun cidx lengths => ?_⟩
    have counted := numbered.count
    rw [List.nil_append] at counted
    exact slicedBy_iff (by omega) (port2slice_grouped (by rw [lengths]; exact numbered.ids))

theorem slices_iff_threeChunks :
    ((∃ segs p, handed threeChunks = some segs ∧ PSlice.readHashes .init threeChunks = some p ∧ Sliced segs p) ↔
      Starts [⟨Fp.ofBytes [1], 5000000⟩, ⟨Fp.ofBytes [2], 3000000⟩, ⟨Fp.ofBytes [3], 9000000⟩]) ∧
      ∃ segs c, handed threeChunks = some segs ∧ CSlice.readHashes .init threeChunks = some c ∧
        c.segCount = segs.length ∧ ∀ cidx : List Int, cidx.length = c.segCount →
          (SlicedBy cidx (CSlice.port2slice c.countMap cidx .empty) ↔ Distinguished cidx) :=
  slices_iff (by decide +kernel) (by decide +kernel)

/-- `pslice` takes the top of an empty heap, and two labels that differ by 2^32 make one slice. -/
theorem slices_broken : (trace noChunks = some [] ∧ handed noChunks = some [[]] ∧
      ¬ ∃ segs p, handed noChunks = some segs ∧ PSlice.readHashes .init noChunks = some p ∧ Sliced segs p) ∧
    ((CSlice.readHashes .init threeChunks).map fun c =>
      (c.segCount, (CSlice.port2slice c.countMap [0, 2 ^ 32] .empty).entries.map fun e => idsOf e.2)) =
      some (2, [[0, 1]]) := by
  refine ⟨⟨by decide +kernel, by decide +kernel, ?_⟩, by decide +kernel⟩
  rintro ⟨segs, p, -, ran, -⟩
  have undefined : PSlice.readHashes .init noChunks = none := by decide +kernel
  rw [undefined] at ran
  cases ran

end EncryptedDedup.Similarity
