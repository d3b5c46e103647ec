import EncryptedDedup.Bucket.ReadChunksFileRun
import EncryptedDedup.Bucket.CompareDB
import EncryptedDedup.Bucket.ReadTypesRun
import Mathlib.Algebra.Order.BigOperators.Group.List

/-!
# `compareDB` on the databases of `readChunksFile`

No more chunks of a file can be found in an answer database than its key says it has.
-/

namespace EncryptedDedup.ReadChunksFile
open TypeList
open LocalityCount (Table pack packed)

/-! ### Counting with an answer database -/

open CompareDB (FileCount fileCount ofType compareDB)

variable {md5 : Bytes → Fp} {ansDb : OrderedMap Bytes Bytes}

variable (ansDb) in
theorem foldl_record (rs : List Bytes) (f : FileCount) :
    (rs.foldl (FileCount.record ansDb) f).count = f.count ∧
    (rs.foldl (FileCount.record ansDb) f).uniqueTmp = f.uniqueTmp ∧
    (rs.foldl (FileCount.record ansDb) f).correctLogicTmp ≤
      f.correctLogicTmp + (rs.map fun r => ofLE ((r.drop 6).take 8)).sum ∧
    (rs.foldl (FileCount.record ansDb) f).correctUniqueTmp ≤ f.correctUniqueTmp + rs.length := by
  induction rs generalizing f with
  | nil => exact ⟨rfl, rfl, Nat.le_add_right _ _, Nat.le_refl _⟩
  | cons r rs ih =>
    obtain ⟨count, unique, logic, distinct⟩ := ih (f.record ansDb r)
    have step : (f.record ansDb r).count = f.count ∧ (f.record ansDb r).uniqueTmp = f.uniqueTmp ∧
        (f.record ansDb r).correctLogicTmp ≤ f.correctLogicTmp + ofLE ((r.drop 6).take 8) ∧
        (f.record ansDb r).correctUniqueTmp ≤ f.correctUniqueTmp + 1 := by
      unfold FileCount.record
      dsimp only
      split
      · exact ⟨rfl, rfl, Nat.le_add_right _ _, Nat.le_succ _⟩
      · exact ⟨rfl, rfl, Nat.mod_le _ _, Nat.le_refl _⟩
    obtain ⟨count₁, unique₁, logic₁, distinct₁⟩ := step
    rw [List.foldl_cons, List.map_cons, List.sum_cons, List.length_cons]
    exact ⟨count.trans count₁, unique.trans unique₁, by omega, by omega⟩

theorem fileCount_le (e : Bytes × Bytes) (ansDb : OrderedMap Bytes Bytes) :
    (fileCount ansDb e).count = ofLE ((e.1.drop 8).take 8) ∧ (fileCount ansDb e).uniqueTmp = e.2.length / 14 ∧
    (fileCount ansDb e).correctLogicTmp ≤ ((cut 14 e.2).map fun r => ofLE ((r.drop 6).take 8)).sum ∧
    (fileCount ansDb e).correctUniqueTmp ≤ (cut 14 e.2).length := by
  obtain ⟨count, unique, logic, distinct⟩ :=
    foldl_record ansDb (cut 14 e.2) ⟨ofLE ((e.1.drop 8).take 8), e.2.length / 14, 0, 0⟩
  exact ⟨count, unique, logic.trans_eq (Nat.zero_add _), distinct.trans_eq (Nat.zero_add _)⟩

/-- An entry that `readChunksFile` writes for a file of `n` chunks. -/
def FileEntry (n : Nat) (e : Bytes × Bytes) : Prop :=
  ∃ i typeHash chunks, e = (metaKey i n typeHash, pack (histogram chunks)) ∧ chunks.length = n

theorem FileEntry.bounds {n : Nat} {e : Bytes × Bytes} (entry : FileEntry n e) (small : n < 2 ^ 64)
    (ansDb : OrderedMap Bytes Bytes) :
    (fileCount ansDb e).count = n ∧ (fileCount ansDb e).uniqueTmp ≤ n ∧
    (fileCount ansDb e).correctLogicTmp ≤ (fileCount ansDb e).count ∧
    (fileCount ansDb e).correctUniqueTmp ≤ (fileCount ansDb e).uniqueTmp := by
  obtain ⟨i, typeHash, chunks, rfl, rfl⟩ := entry
  have records : cut 14 (pack (histogram chunks)) = (histogram chunks).map record := cut_pack (keyed_histogram chunks)
  have total := sum_records small
  have length : (pack (histogram chunks)).length / 14 = (histogram chunks).length := by
    rw [LocalityCount.length_pack (keyed_histogram chunks)]
    exact Nat.mul_div_cancel _ (by decide)
  have distinct : (histogram chunks).length ≤ chunks.length := by
    rw [histogram, length_tally, ← List.length_map (f := Fp.bytes)]
    exact (List.dedup_sublist _).length_le
  obtain ⟨count, unique, logic, found⟩ := fileCount_le (metaKey i chunks.length typeHash, pack (histogram chunks)) ansDb
  rw [metaKey_count, Nat.mod_eq_of_lt small] at count
  rw [length] at unique
  rw [records, List.length_map] at found
  refine ⟨count, unique.trans_le distinct, ?_, found.trans_eq unique.symm⟩
  rw [count]
  exact logic.trans_eq total

theorem foldl_add_le (es : List (Bytes × Bytes)) {s : CompareDB.State}
    (within : ∀ e ∈ es, (fileCount ansDb e).correctLogicTmp ≤ (fileCount ansDb e).count ∧
      (fileCount ansDb e).correctUniqueTmp ≤ (fileCount ansDb e).uniqueTmp)
    (logic : s.correctLogicChunkNumber ≤ s.totalLogicChunkNumber)
    (unique : s.correctUniqueChunkNumber ≤ s.totalUniqueChunkNumber)
    (logicRoom : s.totalLogicChunkNumber + (es.map fun e => (fileCount ansDb e).count).sum < 2 ^ 64)
    (uniqueRoom : s.totalUniqueChunkNumber + (es.map fun e => (fileCount ansDb e).uniqueTmp).sum < 2 ^ 64) :
    let s' := es.foldl (fun s e => s.add (fileCount ansDb e)) s
    s'.correctLogicChunkNumber ≤ s'.totalLogicChunkNumber ∧
      s'.correctUniqueChunkNumber ≤ s'.totalUniqueChunkNumber := by
  induction es generalizing s with
  | nil => exact ⟨logic, unique⟩
  | cons e es ih =>
    obtain ⟨here, later⟩ := List.forall_mem_cons.mp within
    rw [List.map_cons, List.sum_cons] at logicRoom uniqueRoom
    rw [List.foldl_cons]
    refine ih later ?_ ?_ ?_ ?_ <;> simp only [CompareDB.State.add] <;> omega

theorem packed_eq_some {t : Table} {value : Bytes} (filled : packed t = some value) : value = pack t := by
  unfold packed at filled
  split at filled
  · cases filled
  · exact (Option.some.inj filled).symm

theorem stored_entry {files : List (Bytes × Nat)} {lines : List Bytes} {i : Nat} {e : Bytes × Bytes}
    (inside : e ∈ stored md5 i files lines) (enough : (files.map Prod.snd).sum ≤ lines.length) :
    ∃ f ∈ files, FileEntry f.2 e := by
  induction files generalizing i lines with
  | nil => exact absurd inside List.not_mem_nil
  | cons f files ih =>
    rw [List.map_cons, List.sum_cons] at enough
    rw [stored, List.mem_append, Option.mem_toList, Option.map_eq_some_iff] at inside
    rcases inside with ⟨value, filled, rfl⟩ | later
    · refine ⟨f, List.mem_cons_self, i, md5 f.1, chunksOf (lines.take f.2), ?_, ?_⟩
      · rw [packed_eq_some filled]
      · rw [chunksOf, List.length_map, List.length_take, Nat.min_eq_left (by omega)]
    · obtain ⟨g, member, entry⟩ := ih later (by rw [List.length_drop]; omega)
      exact ⟨g, List.mem_cons_of_mem _ member, entry⟩

theorem sum_stored (files : List (Bytes × Nat)) (lines : List Bytes) (i : Nat) :
    ((stored md5 i files lines).map fun e => ofLE ((e.1.drop 8).take 8)).sum ≤ (files.map Prod.snd).sum := by
  induction files generalizing i lines with
  | nil => exact Nat.le_refl 0
  | cons f files ih =>
    have rest := ih (lines.drop f.2) (i + 1)
    have here : ofLE (((metaKey i f.2 (md5 f.1)).drop 8).take 8) ≤ f.2 := by
      rw [metaKey_count]
      exact Nat.mod_le _ _
    rw [stored, List.map_append, List.sum_append, List.map_cons, List.sum_cons]
    cases packed (histogram (chunksOf (lines.take f.2))) with
    | none => simpa using Nat.le_add_left_of_le rest
    | some value =>
      simp only [Option.map_some, Option.toList_some, List.map_singleton, List.sum_singleton]
      omega

theorem metaKey_inj {i j n m : Nat} {typeHash typeHash' : Fp} (smallI : i < 2 ^ 64) (smallJ : j < 2 ^ 64)
    (same : metaKey i n typeHash = metaKey j m typeHash') : i = j ∧ n % 2 ^ 64 = m % 2 ^ 64 := by
  have index := congrArg (List.take 8) same
  rw [metaKey_take, metaKey_take] at index
  have count : ofLE (((metaKey i n typeHash).drop 8).take 8) = ofLE (((metaKey j m typeHash').drop 8).take 8) := by
    rw [same]
  rw [metaKey_count, metaKey_count] at count
  exact ⟨u64_inj smallI smallJ index, count⟩

/-! ### Every run -/

theorem readLines_keys {metaStr : Bytes} {n : Nat} {s s' : State} (finished : readLines metaStr n s = .ok s') :
    s'.fileIndex = s.fileIndex ∧ ∀ k v, s'.fcDb.get k = some v → k = metaStr ∨ s.fcDb.get k = some v := by
  induction n generalizing s with
  | zero =>
    cases finished
    exact ⟨rfl, fun _ _ => Or.inr⟩
  | succ n ih =>
    rw [readLines, readLine, insertFCDB] at finished
    split at finished
    · cases finished
    · obtain ⟨index, keys⟩ := ih finished
      refine ⟨index, fun k v found => (keys k v found).elim Or.inl fun before => ?_⟩
      rw [OrderedMap.get_put] at before
      split at before
      · rename_i own
        exact Or.inl own
      · exact Or.inr before

theorem foldlM_readFile_keys {files : List (Bytes × Nat)} {s s' : State}
    (finished : files.foldlM (readFile md5) s = .ok s') {k v : Bytes} (found : s'.fcDb.get k = some v) :
    s.fcDb.get k = some v ∨ ∃ j f, files[j]? = some f ∧ k = metaKey (s.fileIndex + j) f.2 (md5 f.1) := by
  induction files generalizing s with
  | nil =>
    cases finished
    exact Or.inl found
  | cons f files ih =>
    rw [List.foldlM_cons] at finished
    cases first : readFile md5 s f with
    | error stop =>
      rw [first] at finished
      cases finished
    | ok s₁ =>
      rw [first] at finished
      obtain ⟨index, keys⟩ := readLines_keys first
      rcases ih finished with before | ⟨j, g, listed, rfl⟩
      · rcases keys k v before with rfl | older
        · exact Or.inr ⟨0, f, rfl, rfl⟩
        · exact Or.inl older
      · exact Or.inr ⟨j + 1, g, listed, by rw [index, Nat.add_assoc, Nat.add_comm 1]⟩

/-! ### Lists that are read as they are written -/

/-- Every file has the histogram of its own chunk lines, and `compareDB` finds no more chunks of a
file or of a type than there are. -/
structure Counted (md5 : Bytes → Fp) (fp : Bytes) (files : List (Bytes × Nat)) (s : State) : Prop where
  own : ∀ i f, files[i]? = some f → 0 < f.2 →
    (ownLines files (ReadChunks.chunkLines fp) i f).length = f.2 ∧
      ∃ value, s.fcDb.get (metaKey i f.2 (md5 f.1)) = some value ∧
        Histogram (chunksOf (ownLines files (ReadChunks.chunkLines fp) i f)) value
  file : ∀ ansDb, ∀ e ∈ s.fcDb.entries, (fileCount ansDb e).correctLogicTmp ≤ (fileCount ansDb e).count ∧
    (fileCount ansDb e).correctUniqueTmp ≤ (fileCount ansDb e).uniqueTmp
  type : ∀ ansDb input r, compareDB md5 s.fcDb ansDb input = some r →
    r.correctLogicChunkNumber ≤ r.totalLogicChunkNumber ∧ r.correctUniqueChunkNumber ≤ r.totalUniqueChunkNumber

variable {fp typeFp : Bytes} {files : List (Bytes × Nat)}

theorem sum_entries {fcDb : OrderedMap Bytes Bytes} {i : Nat} {lines : List Bytes}
    (contents : ∀ k v, fcDb.get k = some v ↔ (k, v) ∈ stored md5 i files lines) (typeHash : Fp) :
    ((ofType fcDb typeHash).map fun e => ofLE ((e.1.drop 8).take 8)).sum ≤ (files.map Prod.snd).sum := by
  have distinct : fcDb.entries.Nodup := (List.Nodup.of_map _ fcDb.keys_nodup)
  have inside : fcDb.entries ⊆ stored md5 i files lines := fun e member =>
    (contents e.1 e.2).mp ((fcDb.get_eq_some _ _).mpr member)
  have fewer : List.Subperm (ofType fcDb typeHash) (stored md5 i files lines) :=
    (List.filter_sublist.subperm).trans (List.subperm_of_subset distinct inside)
  obtain ⟨same, permuted, sublist⟩ := fewer
  rw [← (permuted.map _).sum_eq]
  exact ((sublist.map _).sum_le_sum fun _ _ => Nat.zero_le _).trans (sum_stored files lines i)

theorem length_ownLines {lines : List Bytes} {i : Nat} {f : Bytes × Nat} (listed : files[i]? = some f)
    (enough : (files.map Prod.snd).sum ≤ lines.length) : (ownLines files lines i f).length = f.2 := by
  obtain ⟨inside, here⟩ := List.getElem?_eq_some_iff.mp listed
  have whole := List.take_append_drop i files
  rw [List.drop_eq_getElem_cons inside, here] at whole
  have sum := congrArg (fun fs => (fs.map Prod.snd).sum) whole
  simp only [List.map_append, List.map_cons, List.sum_append, List.sum_cons] at sum
  rw [ownLines, List.length_take, List.length_drop]
  omega

theorem counted_of_small (lists : Lists (bufferLines 256 typeFp) files)
    (enough : (files.map Prod.snd).sum ≤ (ReadChunks.chunkLines fp).length)
    (fpSize : fp.length < 2 ^ 63) (typeFpSize : typeFp.length < 2 ^ 63)
    (fit : ∀ line ∈ typeLines (bufferLines 256 typeFp), line.length < 50) (small : ∀ f ∈ files, f.2 < 2 ^ 31) :
    ∃ s, readInChunks md5 fp typeFp = .ok s ∧ Counted md5 fp files s := by
  have read : (files.map fun f => (f.1, readAsInt f.2)) = files := by
    conv_rhs => rw [← List.map_id files]
    apply List.map_congr_left
    intro f member
    have number := small f member
    rw [(readAsInt_eq_iff (by omega)).mpr number, id]
  have room : (ReadChunks.chunkLines fp).length < 2 ^ 63 := by
    have lines := length_bufferLines_le 256 fp
    rw [ReadChunks.chunkLines, List.length_drop]
    omega
  have listed := (lists.length_le).trans (length_bufferLines_le 256 typeFp)
  have lines : (Reader.start fp).lines = ReadChunks.chunkLines fp := List.drop_one.symm
  obtain ⟨s, finished, contents⟩ := @foldlM_readFile md5 files ⟨.empty, 0, 0, .start fp⟩
    (by dsimp only; omega) (fun _ _ found => by cases found) (by dsimp only; rwa [lines])
  replace contents : ∀ k v, s.fcDb.get k = some v ↔ (k, v) ∈ stored md5 0 files (ReadChunks.chunkLines fp) := by
    intro k v
    rw [contents, ← lines]
    exact or_iff_right (by rintro ⟨⟩)
  have entry : ∀ e ∈ s.fcDb.entries, ∃ f ∈ files, FileEntry f.2 e := fun e member =>
    stored_entry ((contents e.1 e.2).mp ((s.fcDb.get_eq_some _ _).mpr member)) enough
  have bounds : ∀ ansDb, ∀ e ∈ s.fcDb.entries, (fileCount ansDb e).uniqueTmp ≤ (fileCount ansDb e).count ∧
      (fileCount ansDb e).correctLogicTmp ≤ (fileCount ansDb e).count ∧
      (fileCount ansDb e).correctUniqueTmp ≤ (fileCount ansDb e).uniqueTmp := by
    intro ansDb e member
    obtain ⟨f, known, made⟩ := entry e member
    have number := small f known
    obtain ⟨count, unique, within⟩ := made.bounds (by omega) ansDb
    exact ⟨unique.trans_eq count.symm, within⟩
  refine ⟨s, ?_, ?_, fun ansDb e member => (bounds ansDb e member).2, ?_⟩
  · rw [readInChunks, lists.readFiles fit, read]
    exact finished
  · intro i f here filled
    have long := length_ownLines here enough
    refine ⟨long, _, (contents _ _).mpr ?_, histogram_pack ?_⟩
    · have inside := mem_stored md5 here filled enough 0
      rwa [Nat.zero_add] at inside
    · have number := small f (List.mem_of_getElem? here)
      rw [chunksOf, List.length_map, long]
      omega
  · intro ansDb input r ran
    obtain ⟨tmp, -, rfl⟩ := Option.map_eq_some_iff.mp ran
    have ours : ∀ e ∈ ofType s.fcDb (md5 tmp.1), e ∈ s.fcDb.entries := fun e member => List.mem_of_mem_filter member
    have counts := sum_entries contents (md5 tmp.1)
    have logic : ((ofType s.fcDb (md5 tmp.1)).map fun e => (fileCount ansDb e).count).sum < 2 ^ 64 := by
      have key : ∀ e, (fileCount ansDb e).count = ofLE ((e.1.drop 8).take 8) := fun e => (fileCount_le e ansDb).1
      simp only [key]
      omega
    have unique : ((ofType s.fcDb (md5 tmp.1)).map fun e => (fileCount ansDb e).uniqueTmp).sum < 2 ^ 64 :=
      (List.sum_le_sum fun e member => (bounds ansDb e (ours e member)).1).trans_lt logic
    exact foldl_add_le _ (fun e member => (bounds ansDb e (ours e member)).2) (Nat.le_refl _) (Nat.le_refl _)
      ((Nat.zero_add _).trans_lt logic) ((Nat.zero_add _).trans_lt unique)

/-- A larger number is read as another one, and the file is stored under that. -/
theorem small_of_counted (lists : Lists (bufferLines 256 typeFp) files) (long : ∀ f ∈ files, f.2 < 2 ^ 63)
    (typeFpSize : typeFp.length < 2 ^ 63) {s : State} (finished : readInChunks md5 fp typeFp = .ok s)
    (own : ∀ i f, files[i]? = some f → 0 < f.2 → ∃ value, s.fcDb.get (metaKey i f.2 (md5 f.1)) = some value) :
    (∀ line ∈ typeLines (bufferLines 256 typeFp), line.length < 50) ∧ ∀ f ∈ files, f.2 < 2 ^ 31 := by
  have fit := lists.fit finished
  refine ⟨fit, fun f member => ?_⟩
  have listed := (lists.length_le).trans (length_bufferLines_le 256 typeFp)
  rw [readInChunks, lists.readFiles fit] at finished
  by_contra large
  obtain ⟨i, inside, here⟩ := List.getElem_of_mem member
  obtain ⟨value, found⟩ := own i f (List.getElem?_eq_some_iff.mpr ⟨inside, here⟩) (by omega)
  rcases foldlM_readFile_keys finished found with older | ⟨j, g, read, key⟩
  · cases older
  · obtain ⟨within, -⟩ := List.getElem?_eq_some_iff.mp read
    rw [List.length_map] at within
    dsimp only at key
    rw [Nat.zero_add] at key
    obtain ⟨rfl, number⟩ := metaKey_inj (by omega) (by omega) key
    rw [List.getElem?_map, List.getElem?_eq_some_iff.mpr ⟨inside, here⟩, Option.map_some, Option.some_inj] at read
    subst read
    have bound := long f member
    have bound' := readAsInt_lt f.2
    dsimp only at number
    exact large ((readAsInt_eq_iff bound).mp (by omega))

/-- The whole accounting is right for the lists whose types fit their buffer and whose numbers fit an
`int`, and for no others. -/
theorem counted_iff (lists : Lists (bufferLines 256 typeFp) files)
    (enough : (files.map Prod.snd).sum ≤ (ReadChunks.chunkLines fp).length)
    (fpSize : fp.length < 2 ^ 63) (typeFpSize : typeFp.length < 2 ^ 63) :
    (∃ s, readInChunks md5 fp typeFp = .ok s ∧ Counted md5 fp files s) ↔
      (∀ line ∈ typeLines (bufferLines 256 typeFp), line.length < 50) ∧ ∀ f ∈ files, f.2 < 2 ^ 31 := by
  constructor
  · rintro ⟨s, finished, counted⟩
    refine small_of_counted lists (fun f member => ?_) typeFpSize finished fun i f here filled => ?_
    · have part : f.2 ≤ (files.map Prod.snd).sum := List.le_sum_of_mem (List.mem_map_of_mem member)
      have lines := length_bufferLines_le 256 fp
      rw [ReadChunks.chunkLines, List.length_drop] at enough
      omega
    · obtain ⟨-, value, found, -⟩ := counted.own i f here filled
      exact ⟨value, found⟩
  · rintro ⟨fit, small⟩
    exact counted_of_small lists enough fpSize typeFpSize fit small

open ReadTypes (typeDigest sharedTrace sharedTypes)
open InferChunks (repeatedTrace chunkLines_repeatedTrace)

theorem lists_shared : Lists (bufferLines 256 sharedTypes) [(chars ['t', 'x', 't'], 2), (chars ['p', 'd', 'f'], 1)] := by
  have lines : bufferLines 256 sharedTypes =
      [chars ['t', 'x', 't', '\n'], chars ['2', '\n'], chars ['p', 'd', 'f', '\n'], chars ['1', '\n']] := by
    decide +kernel
  rw [lines]
  exact @Lists.file _ _ _ (chars ['2']) [] [] _ _ (by decide +kernel) (by decide +kernel) (by decide +kernel)
    (@Lists.file _ _ _ (chars ['1']) [] [] _ _ (by decide +kernel) (by decide +kernel) (by decide +kernel) .nil)

theorem counted_iff_shared :
    (∃ s, readInChunks typeDigest sharedTrace sharedTypes = .ok s ∧
      Counted typeDigest sharedTrace [(chars ['t', 'x', 't'], 2), (chars ['p', 'd', 'f'], 1)] s) ↔
    (∀ line ∈ typeLines (bufferLines 256 sharedTypes), line.length < 50) ∧
      ∀ f ∈ [(chars ['t', 'x', 't'], 2), (chars ['p', 'd', 'f'], 1)], f.2 < 2 ^ 31 :=
  counted_iff lists_shared (by decide +kernel) (by decide +kernel) (by decide +kernel)

def longType : Bytes := List.replicate 50 97 ++ chars ['\n', '1', '\n']

def largeNumber : Bytes := chars ['t', 'x', 't', '\n', '4', '2', '9', '4', '9', '6', '7', '2', '9', '7', '\n']

theorem lists_longType : Lists (bufferLines 256 longType) [(List.replicate 50 97, 1)] := by
  have lines : bufferLines 256 longType = [List.replicate 50 97 ++ [10], chars ['1', '\n']] := by decide +kernel
  rw [lines]
  exact @Lists.file _ _ _ (chars ['1']) [] [] _ _ (by decide +kernel) (by decide +kernel) (by decide +kernel) .nil

theorem lists_largeNumber : Lists (bufferLines 256 largeNumber) [(chars ['t', 'x', 't'], 4294967297)] := by
  have lines : bufferLines 256 largeNumber =
      [chars ['t', 'x', 't', '\n'], chars ['4', '2', '9', '4', '9', '6', '7', '2', '9', '7', '\n']] := by
    decide +kernel
  rw [lines]
  exact @Lists.file _ _ _ (chars ['4', '2', '9', '4', '9', '6', '7', '2', '9', '7']) [] [] _ _
    (by decide +kernel) (by decide +kernel) (by decide +kernel) .nil

/-- The first list overruns `typeBuffer`, and of the second one line of 2^32 + 1 is read. -/
theorem counted_overrun :
    (Lists (bufferLines 256 longType) [(List.replicate 50 97, 1)] ∧ 1 ≤ (ReadChunks.chunkLines sharedTrace).length ∧
      ¬ ∃ s, readInChunks typeDigest sharedTrace longType = .ok s ∧
        Counted typeDigest sharedTrace [(List.replicate 50 97, 1)] s) ∧
    Lists (bufferLines 256 largeNumber) [(chars ['t', 'x', 't'], 4294967297)] ∧
      4294967297 ≤ (ReadChunks.chunkLines (repeatedTrace 4294967297)).length ∧
      ¬ ∃ s, readInChunks typeDigest (repeatedTrace 4294967297) largeNumber = .ok s ∧
        Counted typeDigest (repeatedTrace 4294967297) [(chars ['t', 'x', 't'], 4294967297)] s := by
  refine ⟨⟨lists_longType, by decide +kernel, ?_⟩, lists_largeNumber, ?_, ?_⟩
  · rintro ⟨s, finished, -⟩
    exact absurd (lists_longType.fit finished) (by decide +kernel)
  · rw [chunkLines_repeatedTrace, List.length_replicate]
  · rintro ⟨s, finished, counted⟩
    obtain ⟨-, small⟩ := small_of_counted lists_largeNumber (by decide +kernel) (by decide +kernel) finished
      fun i f here filled => by
        obtain ⟨-, value, found, -⟩ := counted.own i f here filled
        exact ⟨value, found⟩
    exact absurd (small _ List.mem_cons_self) (by decide)

end EncryptedDedup.ReadChunksFile
