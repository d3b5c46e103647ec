import EncryptedDedup.Bucket.ReadChunksFile
import EncryptedDedup.Bucket.InferRun
import EncryptedDedup.SingleStream.NeighbourTables

/-!
# The histograms of `readChunksFile`

Every file of the list gets the histogram of its own chunk lines.
-/

namespace EncryptedDedup.ReadChunksFile
open TypeList
open LocalityCount (Table pack packed Keyed pack_append pack_cons)

/-! ### One histogram -/

def record (e : Bytes × Nat) : Bytes := e.1 ++ u64 e.2

theorem pack_eq (t : Table) : pack t = (t.map record).flatten := rfl

theorem length_record {t : Table} (keyed : Keyed t) : ∀ r ∈ t.map record, r.length = recordSize := by
  intro r member
  obtain ⟨e, inside, rfl⟩ := List.mem_map.mp member
  rw [record, List.length_append, keyed e inside, length_u64]
  rfl

theorem cut_pack {t : Table} (keyed : Keyed t) : cut recordSize (pack t) = t.map record := by
  rw [pack_eq]
  exact cut_flatten (by decide) (length_record keyed)

theorem record_parts {e : Bytes × Nat} (size : e.1.length = fpSize) :
    (record e).take fpSize = e.1 ∧ ((record e).drop fpSize).take 8 = u64 e.2 ∧ (record e).drop recordSize = [] := by
  rw [record, List.take_left' size, List.drop_left' size]
  refine ⟨rfl, List.take_of_length_le (length_u64 _).le, List.drop_eq_nil_of_le ?_⟩
  rw [List.length_append, size, length_u64]
  exact Nat.le_refl _

theorem increment_records {t : Table} (keyed : Keyed t) (key : Bytes) :
    increment key (t.map record) = if key ∈ t.map Prod.fst then some ((bump key t).map record) else none := by
  induction t with
  | nil => rfl
  | cons e t ih =>
    obtain ⟨front, counter, past⟩ := record_parts (keyed e List.mem_cons_self)
    rw [List.map_cons, increment, front, ih fun x member => keyed x (List.mem_cons_of_mem _ member), bump]
    by_cases same : e.1 = key
    · rw [if_pos same, if_pos same, if_pos (by simp [same]), counter, u64_ofLE_succ, past, List.append_nil, same]
      rfl
    · rw [if_neg same, if_neg same]
      by_cases present : key ∈ t.map Prod.fst
      · have known : key ∈ (e :: t).map Prod.fst := List.mem_cons_of_mem _ present
        rw [if_pos present, if_pos known]
        rfl
      · have absent : key ∉ (e :: t).map Prod.fst := by
          rw [List.map_cons, List.mem_cons, not_or]
          exact ⟨Ne.symm same, present⟩
        rw [if_neg present, if_neg absent]
        rfl

theorem keyed_bump {t : Table} (keyed : Keyed t) {key : Bytes} (size : key.length = fpSize) : Keyed (bump key t) := by
  induction t with
  | nil =>
    intro e member
    rw [List.mem_singleton.mp member]
    exact size
  | cons e t ih =>
    obtain ⟨head, tail⟩ := List.forall_mem_cons.mp keyed
    rw [bump]
    split
    · exact List.forall_mem_cons.mpr ⟨size, tail⟩
    · exact List.forall_mem_cons.mpr ⟨head, ih tail⟩

theorem length_pack_mod {t : Table} (keyed : Keyed t) : (pack t).length % 14 = 0 := by
  rw [LocalityCount.length_pack keyed]
  exact Nat.mul_mod_left _ 14

theorem insertKey_packed {t : Table} (keyed : Keyed t) (key : Bytes) : insertKey key (packed t) = pack (bump key t) := by
  by_cases vacant : t = []
  · subst vacant
    rw [packed, if_pos rfl, insertKey, bump, pack_cons]
    exact (List.append_nil _).symm
  · rw [LocalityCount.packed_ne_nil vacant, insertKey, cut_pack keyed, increment_records keyed]
    by_cases present : key ∈ t.map Prod.fst
    · rw [if_pos present]
      rfl
    · rw [if_neg present, bump_of_not_mem present, pack_append, pack_cons, List.append_assoc]
      exact congrArg (pack t ++ ·) (List.append_nil _).symm

theorem insertFCDB_packed {fcDb : OrderedMap Bytes Bytes} {metaStr key : Bytes} {t : Table} (keyed : Keyed t)
    (size : key.length = fpSize) (stored : fcDb.get metaStr = packed t) :
    insertFCDB fcDb metaStr key = .ok (fcDb.put metaStr (pack (bump key t))) := by
  rw [insertFCDB, stored, insertKey_packed keyed]
  exact if_neg (not_not_intro (length_pack_mod (keyed_bump keyed size)))

def histogram (chunks : List Fp) : Table := tally (chunks.map Fp.bytes)

theorem histogram_concat (chunks : List Fp) (x : Fp) :
    histogram (chunks ++ [x]) = bump x.bytes (histogram chunks) := by
  rw [histogram, List.map_append, List.map_singleton, tally_concat, histogram]

theorem keyed_histogram (chunks : List Fp) : Keyed (histogram chunks) := by
  induction chunks using List.reverseRecOn with
  | nil => exact fun _ member => absurd member List.not_mem_nil
  | append_singleton chunks x ih =>
    rw [histogram_concat]
    exact keyed_bump ih x.size_eq

/-! ### The lines of a file -/

def chunksOf (lines : List Bytes) : List Fp := lines.map fun line => (readChunk line).1

/-- The chunks that `n` turns of the loop read; past the end of the trace they come from what is left in the buffer. -/
def reads : Nat → Reader → List Fp
  | 0, _ => []
  | n + 1, r => (readChunk r.buffer).1 :: reads n r.next

theorem length_reads (n : Nat) (r : Reader) : (reads n r).length = n := by
  induction n generalizing r with
  | zero => rfl
  | succ n ih => rw [reads, List.length_cons, ih]

theorem reads_add (m n : Nat) (r : Reader) : reads (m + n) r = reads m r ++ reads n (Reader.next^[m] r) := by
  induction m generalizing r with
  | zero => rw [Nat.zero_add]; rfl
  | succ m ih => rw [Nat.succ_add, reads, ih, reads, List.cons_append, Function.iterate_succ_apply]

theorem reads_of_enough {n : Nat} {r : Reader} (enough : n ≤ r.lines.length) : reads n r = chunksOf (r.lines.take n) := by
  induction n generalizing r with
  | zero => rfl
  | succ n ih =>
    obtain ⟨line, rest, lines⟩ := List.exists_cons_of_length_pos (Nat.lt_of_lt_of_le (Nat.succ_pos n) enough)
    have buffer : r.buffer = line := by rw [Reader.buffer, lines]; rfl
    have next : r.next.lines = rest := by rw [Reader.next, lines]; rfl
    rw [lines, List.length_cons] at enough
    rw [reads, ih (by rw [next]; omega), buffer, next, lines]
    rfl

theorem lines_next (n : Nat) (r : Reader) : (Reader.next^[n] r).lines = r.lines.drop n := by
  induction n generalizing r with
  | zero => rfl
  | succ n ih => rw [Function.iterate_succ_apply, ih, Reader.next, List.drop_tail]

theorem readLines_reads (metaStr : Bytes) (n : Nat) {before : List Fp} {s : State}
    (stored : s.fcDb.get metaStr = packed (histogram before)) :
    ∃ s', readLines metaStr n s = .ok s' ∧ s'.reader = Reader.next^[n] s.reader ∧ s'.fileIndex = s.fileIndex ∧
      ∀ k, s'.fcDb.get k =
        if k = metaStr then packed (histogram (before ++ reads n s.reader)) else s.fcDb.get k := by
  induction n generalizing before s with
  | zero =>
    refine ⟨s, rfl, rfl, rfl, fun k => ?_⟩
    split
    · rename_i same
      rw [same, stored, reads, List.append_nil]
    · rfl
  | succ n ih =>
    have inserted := insertFCDB_packed (keyed_histogram before) (readChunk s.reader.buffer).1.size_eq stored
    rw [← histogram_concat] at inserted
    have filled : histogram (before ++ [(readChunk s.reader.buffer).1]) ≠ [] := by
      rw [histogram_concat]
      exact bump_ne_nil _ _
    obtain ⟨s', finished, left, index, gets⟩ := @ih (before ++ [(readChunk s.reader.buffer).1])
      { s with
        fcDb := s.fcDb.put metaStr (pack (histogram (before ++ [(readChunk s.reader.buffer).1])))
        reader := s.reader.next
        totalLogicChunkNumber := s.totalLogicChunkNumber + 1 }
      (by rw [OrderedMap.get_put_same, LocalityCount.packed_ne_nil filled])
    refine ⟨s', ?_, left, index, fun k => ?_⟩
    · rw [readLines, readLine, inserted]
      exact finished
    · have own : before ++ reads (n + 1) s.reader =
          before ++ [(readChunk s.reader.buffer).1] ++ reads n s.reader.next := List.append_cons ..
      rw [gets, own]
      split
      · rfl
      · rename_i other
        rw [OrderedMap.get_put_other _ _ other]

theorem readLines_histogram (metaStr : Bytes) (n : Nat) {before : List Fp} {s : State}
    (stored : s.fcDb.get metaStr = packed (histogram before)) (enough : n ≤ s.reader.lines.length) :
    ∃ s', readLines metaStr n s = .ok s' ∧ s'.reader.lines = s.reader.lines.drop n ∧ s'.fileIndex = s.fileIndex ∧
      ∀ k, s'.fcDb.get k =
        if k = metaStr then packed (histogram (before ++ chunksOf (s.reader.lines.take n))) else s.fcDb.get k := by
  obtain ⟨s', finished, left, index, gets⟩ := readLines_reads metaStr n stored
  refine ⟨s', finished, ?_, index, ?_⟩
  · rw [left, lines_next]
  · rwa [reads_of_enough enough] at gets

/-! ### The files of a list -/

theorem metaKey_take (i n : Nat) (typeHash : Fp) : (metaKey i n typeHash).take 8 = u64 i := by
  rw [metaKey, List.append_assoc, List.take_left' (length_u64 i)]

theorem metaKey_count (i n : Nat) (typeHash : Fp) : ofLE (((metaKey i n typeHash).drop 8).take 8) = n % 2 ^ 64 := by
  rw [metaKey, List.append_assoc, List.drop_left' (length_u64 i), List.take_left' (length_u64 n), ofLE_u64]

def stored (md5 : Bytes → Fp) : Nat → List (Bytes × Nat) → List Bytes → List (Bytes × Bytes)
  | _, [], _ => []
  | i, f :: files, lines =>
    ((packed (histogram (chunksOf (lines.take f.2)))).map fun value => (metaKey i f.2 (md5 f.1), value)).toList ++
      stored md5 (i + 1) files (lines.drop f.2)

variable (md5 : Bytes → Fp)

theorem foldlM_readFile (files : List (Bytes × Nat)) {s : State} (count : s.fileIndex + files.length ≤ 2 ^ 64)
    (older : ∀ k v, s.fcDb.get k = some v → ∃ j < s.fileIndex, k.take 8 = u64 j)
    (enough : (files.map Prod.snd).sum ≤ s.reader.lines.length) :
    ∃ s', files.foldlM (readFile md5) s = .ok s' ∧ ∀ k v, s'.fcDb.get k = some v ↔
      s.fcDb.get k = some v ∨ (k, v) ∈ stored md5 s.fileIndex files s.reader.lines := by
  induction files generalizing s with
  | nil => exact ⟨s, rfl, fun k v => by simp [stored]⟩
  | cons f files ih =>
    rw [List.map_cons, List.sum_cons] at enough
    rw [List.length_cons] at count
    have fresh : s.fcDb.get (metaKey s.fileIndex f.2 (md5 f.1)) = none := by
      cases found : s.fcDb.get (metaKey s.fileIndex f.2 (md5 f.1)) with
      | none => rfl
      | some v =>
        obtain ⟨j, below, same⟩ := older _ v found
        rw [metaKey_take] at same
        exact absurd (u64_inj (by omega) (by omega) same) (by omega)
    obtain ⟨s₁, read, left, index, gets⟩ := @readLines_histogram (metaKey s.fileIndex f.2 (md5 f.1)) f.2 []
      { s with fileIndex := s.fileIndex + 1 } (by rw [fresh]; rfl) (by dsimp only; omega)
    dsimp only at left index gets
    have get₁ : ∀ k v, s₁.fcDb.get k = some v ↔ s.fcDb.get k = some v ∨
        (k, v) ∈ ((packed (histogram (chunksOf (s.reader.lines.take f.2)))).map
          fun value => (metaKey s.fileIndex f.2 (md5 f.1), value)).toList := by
      intro k v
      rw [gets, List.nil_append, Option.mem_toList, Option.map_eq_some_iff]
      by_cases here : k = metaKey s.fileIndex f.2 (md5 f.1)
      · subst here
        simp [fresh]
      · simp [here, Ne.symm here]
    have older₁ : ∀ k v, s₁.fcDb.get k = some v → ∃ j < s₁.fileIndex, k.take 8 = u64 j := by
      intro k v found
      rw [index]
      rcases (get₁ k v).mp found with before | new
      · obtain ⟨j, below, same⟩ := older k v before
        exact ⟨j, by omega, same⟩
      · obtain ⟨value, -, same⟩ := Option.map_eq_some_iff.mp (Option.mem_toList.mp new)
        obtain ⟨rfl, -⟩ := Prod.mk.inj same
        exact ⟨s.fileIndex, Nat.lt_succ_self _, metaKey_take ..⟩
    obtain ⟨s', rest, get'⟩ := ih (s := s₁) (by omega) older₁ (by rw [left, List.length_drop]; omega)
    refine ⟨s', ?_, fun k v => ?_⟩
    · rw [List.foldlM_cons, readFile, read]
      exact rest
    · rw [get', get₁, left, index, stored, List.mem_append, or_assoc]

def ownLines (files : List (Bytes × Nat)) (lines : List Bytes) (i : Nat) (f : Bytes × Nat) : List Bytes :=
  (lines.drop ((files.take i).map Prod.snd).sum).take f.2

theorem mem_stored {files : List (Bytes × Nat)} {lines : List Bytes} {i : Nat} {f : Bytes × Nat}
    (listed : files[i]? = some f) (filled : 0 < f.2) (enough : (files.map Prod.snd).sum ≤ lines.length) (first : Nat) :
    (metaKey (first + i) f.2 (md5 f.1), pack (histogram (chunksOf (ownLines files lines i f)))) ∈
      stored md5 first files lines := by
  induction files generalizing lines i first with
  | nil => simp at listed
  | cons g files ih =>
    rw [List.map_cons, List.sum_cons] at enough
    rw [stored, List.mem_append]
    cases i with
    | zero =>
      rw [List.getElem?_cons_zero, Option.some_inj] at listed
      subst listed
      left
      have chunks : histogram (chunksOf (lines.take g.2)) ≠ [] := by
        obtain ⟨line, rest, rfl⟩ := List.exists_cons_of_length_pos (l := lines) (by omega)
        obtain ⟨n, same⟩ : ∃ n, g.2 = n + 1 := ⟨g.2 - 1, by omega⟩
        rw [same, List.take_succ_cons]
        intro empty
        have member : (readChunk line).1.bytes ∈ (histogram (chunksOf (line :: rest.take n))).map Prod.fst := by
          rw [histogram, mem_keys_tally]
          exact List.mem_map_of_mem (List.mem_cons_self)
        rw [empty] at member
        exact absurd member List.not_mem_nil
      rw [LocalityCount.packed_ne_nil chunks, ownLines]
      simp
    | succ i =>
      right
      rw [List.getElem?_cons_succ] at listed
      have later : (files.map Prod.snd).sum ≤ (lines.drop g.2).length := by
        rw [List.length_drop]
        omega
      have inside := ih listed later (first + 1)
      rw [ownLines, List.drop_drop] at inside
      rw [ownLines, List.take_succ_cons, List.map_cons, List.sum_cons, show first + (i + 1) = first + 1 + i by omega]
      exact inside

/-! ### What a value says -/

/-- Records of 14 bytes, one for each distinct chunk with its number of occurrences. -/
structure Histogram (chunks : List Fp) (value : Bytes) : Prop where
  whole : ∀ r ∈ cut recordSize value, r.length = recordSize
  distinct : ((cut recordSize value).map fun r => r.take fpSize).Nodup
  counts : ∀ r, r ∈ cut recordSize value ↔ ∃ x ∈ chunks, r = x.bytes ++ u64 (chunks.count x)
  total : ((cut recordSize value).map fun r => ofLE ((r.drop fpSize).take 8)).sum = chunks.length

theorem histogram_counts {chunks : List Fp} (few : chunks.length < 2 ^ 64) :
    (histogram chunks).map (fun e => ofLE (u64 e.2)) = (histogram chunks).map Prod.snd := by
  apply List.map_congr_left
  intro e member
  have bound := (le_length_of_mem_tally member).2
  rw [List.length_map] at bound
  rw [ofLE_u64, Nat.mod_eq_of_lt (by omega)]

theorem sum_records {chunks : List Fp} (few : chunks.length < 2 ^ 64) :
    ((cut recordSize (pack (histogram chunks))).map fun r => ofLE ((r.drop fpSize).take 8)).sum = chunks.length := by
  have keyed := keyed_histogram chunks
  have fields : ((histogram chunks).map record).map (fun r => ofLE ((r.drop fpSize).take 8)) =
      (histogram chunks).map fun e => ofLE (u64 e.2) := by
    rw [List.map_map]
    apply List.map_congr_left
    intro e member
    rw [Function.comp_apply, (record_parts (keyed e member)).2.1]
  rw [cut_pack keyed, fields, histogram_counts few, histogram, sum_tally, List.length_map]

theorem histogram_pack {chunks : List Fp} (few : chunks.length < 2 ^ 64) : Histogram chunks (pack (histogram chunks)) := by
  have keyed := keyed_histogram chunks
  have injective : Function.Injective Fp.bytes := fun _ _ => Fp.ext
  refine ⟨?_, ?_, ?_, sum_records few⟩
  · rw [cut_pack keyed]
    exact length_record keyed
  · have keys : ((histogram chunks).map record).map (fun r => r.take fpSize) = (histogram chunks).map Prod.fst := by
      rw [List.map_map]
      apply List.map_congr_left
      intro e member
      exact (record_parts (keyed e member)).1
    rw [cut_pack keyed, keys]
    exact keys_tally_nodup _
  · intro r
    rw [cut_pack keyed, List.mem_map]
    constructor
    · rintro ⟨⟨key, n⟩, member, rfl⟩
      have known : key ∈ (histogram chunks).map Prod.fst := List.mem_map_of_mem member
      obtain ⟨x, inside, rfl⟩ := List.mem_map.mp ((mem_keys_tally _ _).mp known)
      obtain ⟨counted, -⟩ := (mem_tally_map injective).mp member
      exact ⟨x, inside, by rw [record, counted]⟩
    · rintro ⟨x, inside, rfl⟩
      exact ⟨(x.bytes, chunks.count x), (mem_tally_map injective).mpr ⟨rfl, List.count_pos_iff.mpr inside⟩, rfl⟩

end EncryptedDedup.ReadChunksFile
