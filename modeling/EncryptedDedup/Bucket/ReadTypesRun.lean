import EncryptedDedup.Bucket.ReadTypes
import EncryptedDedup.Bucket.InferTypeRun
import EncryptedDedup.Bucket.Partition
import Mathlib.Data.Multiset.MapFold

/-!
# The databases of `readInChunkToDBsFileType`

A chunk joins a size bucket once for each of its types, and `inferChunksType` loads every entry of
a bucket whose fingerprint occurs under the type. Counts are `int`s in decimal: after 2^31 + 2
occurrences a chunk looks new again.
-/

namespace EncryptedDedup.ReadTypes
open ReadChunks (pack pack_append length_pack cut_pack)
open TypeList

/-! ### The counters -/

/-- The number of occurrences after which `insertFCDB` returns 1 again. -/
def wrap : Nat := 2 ^ 31 + 2

def counter (n : Nat) : Nat := if n % wrap ≤ 2 ^ 31 then n % wrap else 2 ^ 64 - 2 ^ 31 + 1

theorem toU64_atoi_decimal_wrap : toU64 (atoi (decimal (2 ^ 31))) = 2 ^ 64 - 2 ^ 31 := by
  rw [toU64, atoi, strtol_decimal]
  decide +kernel

theorem toU64_atoi_decimal_clamped : toU64 (atoi (decimal (2 ^ 64 - 2 ^ 31 + 1))) = 2 ^ 64 - 1 := by
  rw [toU64, atoi, strtol_decimal]
  decide +kernel

theorem succ_mod_wrap (n : Nat) : (n + 1) % wrap = if n % wrap = 2 ^ 31 + 1 then 0 else n % wrap + 1 := by
  unfold wrap
  split <;> omega

theorem mod_wrap_le (n : Nat) : n % wrap ≤ 2 ^ 31 + 1 := Nat.lt_succ_iff.mp (Nat.mod_lt n (by decide))

theorem counter_succ (n : Nat) : (toU64 (atoi (decimal (counter n))) + 1) % 2 ^ 64 = counter (n + 1) := by
  have below := mod_wrap_le n
  unfold counter
  rw [succ_mod_wrap]
  generalize n % wrap = r at below ⊢
  rcases Nat.lt_trichotomy r (2 ^ 31) with small | rfl | past
  · have next : (if r = 2 ^ 31 + 1 then 0 else r + 1) = r + 1 := if_neg (by omega)
    rw [if_pos (le_of_lt small), toU64_atoi_decimal small, next, if_pos (Nat.succ_le_of_lt small)]
    omega
  · rw [if_pos (Nat.le_refl _), toU64_atoi_decimal_wrap]
    decide
  · obtain rfl : r = 2 ^ 31 + 1 := by omega
    rw [if_neg (by decide), toU64_atoi_decimal_clamped]
    decide

/-- `insertFCDB` returns 1 after a multiple of `wrap` occurrences. -/
theorem counter_one (n : Nat) : Int.bmod (counter (n + 1)) (2 ^ 32) = 1 ↔ n % wrap = 0 := by
  have below := mod_wrap_le n
  unfold counter
  rw [succ_mod_wrap, Int.bmod_def]
  generalize n % wrap = r at below ⊢
  split <;> split <;> split <;> omega

/-! ### The databases after a sequence of chunks -/

def bucketOf (seen : List ((Fp × Fp) × Bytes)) (size : Bytes) : List Fp :=
  ((everyNth wrap seen).filter fun e => e.2 = size).map fun e => e.1.1

structure Represents (seen : List ((Fp × Fp) × Bytes)) (s : State) : Prop where
  counts : ∀ x typeHash : Fp, s.fcDb.get (x.bytes ++ typeHash.bytes) =
    if (x, typeHash) ∈ seen.map Prod.fst then some (decimal (counter (timesSeen seen (x, typeHash)))) else none
  buckets : ∀ size, s.sfDb.get size =
    if bucketOf seen size = [] then none else some (pack (bucketOf seen size))

theorem represents_start (fp : Bytes) : Represents [] (State.start fp) := ⟨fun _ _ => rfl, fun _ => rfl⟩

theorem bucketOf_concat_new {seen : List ((Fp × Fp) × Bytes)} {k : Fp × Fp} (enters : timesSeen seen k % wrap = 0)
    (label size : Bytes) :
    bucketOf (seen ++ [(k, label)]) size =
      if size = label then bucketOf seen size ++ [k.1] else bucketOf seen size := by
  rw [bucketOf, everyNth_concat, if_pos enters, List.filter_append, List.map_append, ← bucketOf]
  by_cases same : size = label
  · simp [same]
  · simp [same, Ne.symm same]

theorem bucketOf_concat_old {seen : List ((Fp × Fp) × Bytes)} {k : Fp × Fp} (counted : ¬ timesSeen seen k % wrap = 0)
    (label size : Bytes) : bucketOf (seen ++ [(k, label)]) size = bucketOf seen size := by
  rw [bucketOf, everyNth_concat, if_neg counted, List.append_nil, ← bucketOf]

theorem key_inj {x y typeHash typeHash' : Fp} :
    x.bytes ++ typeHash.bytes = y.bytes ++ typeHash'.bytes ↔ x = y ∧ typeHash = typeHash' := by
  constructor
  · intro same
    obtain ⟨left, right⟩ := List.append_inj same (x.size_eq.trans y.size_eq.symm)
    exact ⟨Fp.ext left, Fp.ext right⟩
  · rintro ⟨rfl, rfl⟩
    rfl

theorem insertFCDB_represents {seen : List ((Fp × Fp) × Bytes)} {s : State} (kept : Represents seen s)
    (x typeHash : Fp) :
    (insertFCDB s.fcDb (x.bytes ++ typeHash.bytes)).1 =
      s.fcDb.put (x.bytes ++ typeHash.bytes) (decimal (counter (timesSeen seen (x, typeHash) + 1))) ∧
    ((insertFCDB s.fcDb (x.bytes ++ typeHash.bytes)).2 = 1 ↔ timesSeen seen (x, typeHash) % wrap = 0) := by
  unfold insertFCDB
  rw [kept.counts x typeHash]
  by_cases known : (x, typeHash) ∈ seen.map Prod.fst
  · rw [if_pos known]
    dsimp only
    rw [counter_succ]
    exact ⟨rfl, counter_one _⟩
  · rw [if_neg known, timesSeen_eq_zero.mpr known]
    exact ⟨by simp [counter, wrap, decimal, chars]; rfl, iff_of_true rfl rfl⟩

theorem insertSFDB_represents {seen : List ((Fp × Fp) × Bytes)} {s : State} (kept : Represents seen s)
    (size : Bytes) (x : Fp) :
    insertSFDB s.sfDb size x.bytes = .ok (s.sfDb.put size (pack (bucketOf seen size ++ [x]))) := by
  have last : pack [x] = x.bytes := List.append_nil _
  unfold insertSFDB
  rw [kept.buckets size, pack_append, last]
  by_cases none_yet : bucketOf seen size = []
  · rw [if_pos none_yet, none_yet]
    rfl
  · have whole : (pack (bucketOf seen size) ++ x.bytes).length % 6 = 0 := by
      rw [List.length_append, length_pack, x.size_eq, ← Nat.mul_succ]
      exact Nat.mul_mod_right 6 _
    rw [if_neg none_yet]
    exact if_neg (not_not_intro whole)

theorem insertChunk_represents {seen : List ((Fp × Fp) × Bytes)} {s : State} (kept : Represents seen s)
    (x typeHash : Fp) (size : Bytes) :
    ∃ fcDb sfDb, insertChunk s typeHash.bytes x size = .ok { s with fcDb := fcDb, sfDb := sfDb } ∧
      Represents (seen ++ [((x, typeHash), size)]) { s with fcDb := fcDb, sfDb := sfDb } := by
  obtain ⟨counted, new⟩ := insertFCDB_represents kept x typeHash
  have counts : ∀ y T : Fp, ((insertFCDB s.fcDb (x.bytes ++ typeHash.bytes)).1).get (y.bytes ++ T.bytes) =
      if (y, T) ∈ (seen ++ [((x, typeHash), size)]).map Prod.fst then
        some (decimal (counter (timesSeen (seen ++ [((x, typeHash), size)]) (y, T))))
      else none := by
    intro y T
    rw [counted, OrderedMap.get_put, kept.counts y T, timesSeen_concat, List.map_append, List.map_singleton]
    by_cases same : y = x ∧ T = typeHash
    · obtain ⟨rfl, rfl⟩ := same
      simp
    · have other : ¬ (x, typeHash) = (y, T) := fun hit => same (by cases hit; exact ⟨rfl, rfl⟩)
      rw [if_neg (mt key_inj.mp same), if_neg other, Nat.add_zero]
      simp only [List.mem_append, List.mem_singleton, Ne.symm other, or_false]
  by_cases enters : timesSeen seen (x, typeHash) % wrap = 0
  · refine ⟨_, s.sfDb.put size (pack (bucketOf seen size ++ [x])), ?_, counts, fun label => ?_⟩
    · refine (if_pos (new.mpr enters)).trans ?_
      show (insertSFDB s.sfDb size x.bytes >>= _) = _
      rw [insertSFDB_represents kept size x]
      rfl
    · rw [bucketOf_concat_new enters, OrderedMap.get_put, kept.buckets label]
      by_cases same : label = size
      · subst same
        simp
      · rw [if_neg same, if_neg same]
  · refine ⟨_, s.sfDb, if_neg (mt new.mp enters), counts, fun label => ?_⟩
    rw [bucketOf_concat_old enters]
    exact kept.buckets label

/-! ### Which line belongs to which file -/

/-- The buffers that the next turns of the loop will read. A trace of one line is read as a chunk. -/
def upcoming (r : Reader) : List Bytes :=
  if r.lines = [] then [r.readBuffer].filter fun buffer => (chunkOf buffer).isSome else r.lines

theorem chunkOf_strtokLeft (line : Bytes) : chunkOf (strtokLeft line (chars [':', '\t', '\n', ' '])) = none := by
  rw [chunkOf, readChunk_strtokLeft, Option.map_none]

theorem upcoming_next {r : Reader} (chunk : (chunkOf r.buffer).isSome) : upcoming r = r.buffer :: upcoming r.next := by
  unfold upcoming Reader.next
  dsimp only
  rw [List.filter_singleton, List.filter_singleton, chunkOf_strtokLeft]
  unfold Reader.buffer at chunk ⊢
  cases lines : r.lines with
  | nil =>
    rw [lines, List.headD_nil] at chunk
    simp [chunk]
  | cons line rest => cases rest <;> simp

theorem readLine_ok {seen : List ((Fp × Fp) × Bytes)} {s s' : State} (kept : Represents seen s) {typeHash : Fp}
    (finished : readLine typeHash.bytes s = .ok s') :
    ∃ line x size, upcoming s.reader = line :: upcoming s'.reader ∧ chunkOf line = some (x, size) ∧
      Represents (seen ++ [((x, typeHash), size)]) s' := by
  unfold readLine at finished
  dsimp only at finished
  cases chunk : chunkOf s.reader.buffer with
  | none =>
    rw [chunk] at finished
    cases finished
  | some c =>
    obtain ⟨x, size⟩ := c
    rw [chunk] at finished
    dsimp only at finished
    have before : Represents seen
        { s with reader := s.reader.next, totalLogicChunkNumber := s.totalLogicChunkNumber + 1 } :=
      ⟨kept.counts, kept.buckets⟩
    obtain ⟨fcDb, sfDb, inserted, kept'⟩ := insertChunk_represents before x typeHash size
    obtain rfl := Except.ok.inj (inserted.symm.trans finished)
    exact ⟨s.reader.buffer, x, size, upcoming_next (by rw [chunk]; rfl), chunk, kept'⟩

/-- The chunk that a line adds under a type. -/
def chunkUnder (typeHash : Fp) (line : Bytes) : Option ((Fp × Fp) × Bytes) :=
  (chunkOf line).map fun chunk => ((chunk.1, typeHash), chunk.2)

theorem readLines_ok {typeHash : Fp} (n : Nat) {seen : List ((Fp × Fp) × Bytes)} {s s' : State}
    (kept : Represents seen s) (finished : readLines typeHash.bytes n s = .ok s') :
    ∃ lines, upcoming s.reader = lines ++ upcoming s'.reader ∧ lines.length = n ∧
      Represents (seen ++ lines.filterMap (chunkUnder typeHash)) s' := by
  induction n generalizing seen s with
  | zero =>
    obtain rfl := Except.ok.inj finished
    exact ⟨[], rfl, rfl, by simpa using kept⟩
  | succ n ih =>
    rw [readLines] at finished
    cases first : readLine typeHash.bytes s with
    | error stop =>
      rw [first] at finished
      cases finished
    | ok s₁ =>
      rw [first] at finished
      obtain ⟨line, x, size, next, chunk, kept₁⟩ := readLine_ok kept first
      obtain ⟨lines, later, length, kept'⟩ := ih kept₁ finished
      refine ⟨line :: lines, ?_, congrArg Nat.succ length, ?_⟩
      · rw [next, later, List.cons_append]
      · have added : chunkUnder typeHash line = some ((x, typeHash), size) := by rw [chunkUnder, chunk]; rfl
        rw [List.filterMap_cons_some added, List.append_cons]
        exact kept'

def assign (files : List (Bytes × Nat)) (lines : List Bytes) : List (Bytes × Bytes) :=
  (files.flatMap fun f => List.replicate f.2 f.1).zip lines

theorem assign_append (itemN : Bytes) (files : List (Bytes × Nat)) (own lines : List Bytes) :
    assign ((itemN, own.length) :: files) (own ++ lines) = own.map (fun line => (itemN, line)) ++ assign files lines := by
  rw [assign, List.flatMap_cons, List.zip_append (List.length_replicate), ← assign]
  congr 1
  induction own with
  | nil => rfl
  | cons line own ih => rw [List.length_cons, List.replicate_succ, List.zip_cons_cons, ih, List.map_cons]

def hashed (md5 : Bytes → Fp) (l : Bytes × Bytes) : Option ((Fp × Fp) × Bytes) := chunkUnder (md5 l.1) l.2

theorem readFile_ok {md5 : Bytes → Fp} {seen : List ((Fp × Fp) × Bytes)} {s s' : State} (kept : Represents seen s)
    {file : Bytes × Nat} (finished : readFile md5 s file = .ok s') :
    ∃ lines, lines.length = file.2 ∧ upcoming s.reader = lines ++ upcoming s'.reader ∧
      Represents (seen ++ lines.filterMap (chunkUnder (md5 file.1))) s' := by
  have before : Represents seen
      { s with
        tDb := insertTypeDB s.tDb file.1 file.2
        tpDb := insertTypeDBPair s.tpDb file.1 (md5 file.1).bytes } := ⟨kept.counts, kept.buckets⟩
  obtain ⟨lines, next, length, kept'⟩ := readLines_ok file.2 before finished
  exact ⟨lines, length, next, kept'⟩

theorem foldlM_readFile {md5 : Bytes → Fp} (files : List (Bytes × Nat)) {seen : List ((Fp × Fp) × Bytes)} {s s' : State}
    (kept : Represents seen s) (finished : files.foldlM (readFile md5) s = .ok s') :
    Represents (seen ++ (assign files (upcoming s.reader)).filterMap (hashed md5)) s' := by
  induction files generalizing seen s with
  | nil =>
    obtain rfl := Except.ok.inj finished
    simpa [assign] using kept
  | cons file files ih =>
    rw [List.foldlM_cons] at finished
    cases first : readFile md5 s file with
    | error stop =>
      rw [first] at finished
      cases finished
    | ok s₁ =>
      rw [first] at finished
      obtain ⟨lines, length, next, kept₁⟩ := readFile_ok kept first
      have rest := ih kept₁ finished
      obtain ⟨itemN, chunkNumber⟩ := file
      obtain rfl : lines.length = chunkNumber := length
      rw [next, assign_append, List.filterMap_append, List.filterMap_map, ← List.append_assoc]
      exact rest

def typedLines (fp typeFp : Bytes) : List (Bytes × Bytes) :=
  assign (listedFiles [] (bufferLines 256 typeFp)) (upcoming (.start fp))

def chunksRead (fp typeFp : Bytes) : List ((Fp × Bytes) × Bytes) :=
  (typedLines fp typeFp).filterMap fun l => (chunkOf l.2).map fun chunk => ((chunk.1, l.1), chunk.2)

def hashedChunks (md5 : Bytes → Fp) (fp typeFp : Bytes) : List ((Fp × Fp) × Bytes) :=
  (chunksRead fp typeFp).map fun e => ((e.1.1, md5 e.1.2), e.2)

theorem readInChunks_represents {md5 : Bytes → Fp} {fp typeFp : Bytes} {s : State}
    (read : readInChunks md5 fp typeFp = .ok s) : Represents (hashedChunks md5 fp typeFp) s := by
  have kept := foldlM_readFile _ (represents_start fp) (readFiles_ok [] (bufferLines 256 typeFp) read)
  rw [List.nil_append] at kept
  have same : hashedChunks md5 fp typeFp = (typedLines fp typeFp).filterMap (hashed md5) := by
    rw [hashedChunks, chunksRead, List.map_filterMap]
    apply List.filterMap_congr
    intro l _
    rw [hashed, chunkUnder, Option.map_map]
    rfl
  rw [same]
  exact kept

/-! ### Loading every bucket -/

section Loading

open InferChunksType (FC cmp load load_whole candidates Whole)

variable {seen : List ((Fp × Fp) × Bytes)} {s : State} {typeHash : Fp}

/-- The loading loops of `inferTest` over all buckets. -/
def loadAll (P : PriorityQueue FC cmp) (s : State) (typeHash : Fp) : Option P.Heap :=
  s.sfDb.entries.foldlM (fun que e => load P s.fcDb typeHash e.2 que) P.empty

def keyUnder (typeHash x : Fp) : Bytes := x.bytes ++ typeHash.bytes

def underType (seen : List ((Fp × Fp) × Bytes)) (typeHash : Fp) (xs : List Fp) : List Fp :=
  xs.filter fun x => (x, typeHash) ∈ seen.map Prod.fst

theorem whole_pack (xs : List Fp) : Whole (pack xs) := by
  intro part member
  rw [cut_pack] at member
  obtain ⟨x, -, rfl⟩ := List.mem_map.mp member
  exact x.size_eq

theorem Represents.candidates (kept : Represents seen s) (xs : List Fp) :
    (candidates s.fcDb typeHash (pack xs)).map FC.key = (underType seen typeHash xs).map (keyUnder typeHash) := by
  unfold InferChunksType.candidates underType
  rw [cut_pack]
  induction xs with
  | nil => rfl
  | cons x xs ih =>
    rw [List.map_cons, List.filter_cons]
    by_cases under : (x, typeHash) ∈ seen.map Prod.fst
    · have found := kept.counts x typeHash
      rw [if_pos under] at found
      rw [List.filterMap_cons_some (by rw [found]; rfl), List.map_cons, ih, if_pos (by simpa using under), List.map_cons]
      rfl
    · have absent := kept.counts x typeHash
      rw [if_neg under] at absent
      rw [List.filterMap_cons_none (by rw [absent]; rfl), ih, if_neg (by simpa using under)]

variable (typeHash) in
theorem foldlM_load (P : PriorityQueue FC cmp) (fcDb : OrderedMap Bytes Bytes) (es : List (Bytes × Bytes))
    (whole : ∀ e ∈ es, Whole e.2) (que : P.Heap) :
    ∃ que', es.foldlM (fun que e => load P fcDb typeHash e.2 que) que = some que' ∧
      P.contents que' = (es.flatMap fun e => candidates fcDb typeHash e.2 : List FC) + P.contents que := by
  induction es generalizing que with
  | nil => exact ⟨que, rfl, by simp⟩
  | cons e es ih =>
    obtain ⟨que₁, loaded, held⟩ := load_whole typeHash fcDb (whole e List.mem_cons_self) que
    obtain ⟨que', rest, held'⟩ := ih (fun e' member => whole e' (List.mem_cons_of_mem _ member)) que₁
    refine ⟨que', ?_, ?_⟩
    · rw [List.foldlM_cons, loaded]
      exact rest
    · rw [held', held, List.flatMap_cons, ← Multiset.coe_add, ← Multiset.add_assoc,
        Multiset.add_comm (Multiset.ofList (es.flatMap _))]

variable (typeHash) in
/-- The chunks that are loaded are those that occur under the type, each as often as it has entered
the buckets. -/
theorem Represents.loadAll (kept : Represents seen s) (P : PriorityQueue FC cmp) :
    ∃ que, loadAll P s typeHash = some que ∧
      (P.contents que).map FC.key =
        ((underType seen typeHash ((everyNth wrap seen).map fun e => e.1.1)).map (keyUnder typeHash) : List Bytes) := by
  have bucket : ∀ e ∈ s.sfDb.entries, e.2 = pack (bucketOf seen e.1) := by
    intro e member
    have found := (OrderedMap.get_eq_some s.sfDb e.1 e.2).mpr member
    rw [kept.buckets e.1] at found
    split at found
    · cases found
    · exact (Option.some.inj found).symm
  have whole : ∀ e ∈ s.sfDb.entries, Whole e.2 := fun e member => bucket e member ▸ whole_pack _
  obtain ⟨que, loaded, held⟩ := foldlM_load typeHash P s.fcDb s.sfDb.entries whole P.empty
  refine ⟨que, loaded, ?_⟩
  have gathered : ∀ es : List (Bytes × Bytes), (∀ e ∈ es, e.2 = pack (bucketOf seen e.1)) →
      (es.flatMap fun e => InferChunksType.candidates s.fcDb typeHash e.2).map FC.key =
        (underType seen typeHash ((es.map Prod.fst).flatMap (bucketOf seen))).map (keyUnder typeHash) := by
    intro es
    induction es with
    | nil => exact fun _ => rfl
    | cons e es ih =>
      intro each
      rw [List.flatMap_cons, List.map_append, ih fun e' member => each e' (List.mem_cons_of_mem _ member),
        each e List.mem_cons_self, kept.candidates, List.map_cons, List.flatMap_cons, underType, underType, underType,
        List.filter_append, List.map_append]
  have labelled : ∀ e ∈ everyNth wrap seen, e.2 ∈ s.sfDb.keys := by
    intro e member
    have filled : bucketOf seen e.2 ≠ [] :=
      List.ne_nil_of_mem (List.mem_map_of_mem (List.mem_filter.mpr ⟨member, by simp⟩))
    rw [OrderedMap.mem_keys, kept.buckets, if_neg filled]
    exact ⟨_, rfl⟩
  have all : (s.sfDb.keys.flatMap (bucketOf seen)).Perm ((everyNth wrap seen).map fun e => e.1.1) := by
    have permuted := (flatMap_filter_perm s.sfDb.keys_nodup labelled).map fun e => e.1.1
    rwa [List.map_flatMap] at permuted
  rw [held, P.contents_empty, Multiset.add_zero, Multiset.map_coe, gathered _ bucket]
  exact Multiset.coe_eq_coe.mpr ((all.filter _).map _)

theorem keyUnder_injective (typeHash : Fp) : Function.Injective (keyUnder typeHash) :=
  fun _ _ same => (key_inj.mp same).1

theorem underType_nodup_iff :
    (underType seen typeHash ((everyNth wrap seen).map fun e => e.1.1)).Nodup ↔
      ∀ x, (x, typeHash) ∈ seen.map Prod.fst →
        (∀ other, (x, other) ∈ seen.map Prod.fst → other = typeHash) ∧ timesSeen seen (x, typeHash) ≤ wrap := by
  have positive : 0 < wrap := by decide
  have split : underType seen typeHash ((everyNth wrap seen).map fun e => e.1.1) =
      (((everyNth wrap seen).map Prod.fst).filter fun k => (k.1, typeHash) ∈ seen.map Prod.fst).map Prod.fst := by
    rw [underType, List.filter_map, List.filter_map, List.map_map]
    rfl
  rw [split]
  generalize keys : ((everyNth wrap seen).map Prod.fst).filter (fun k => (k.1, typeHash) ∈ seen.map Prod.fst) = ks
  have mem_keys : ∀ k, k ∈ ks ↔ k ∈ seen.map Prod.fst ∧ (k.1, typeHash) ∈ seen.map Prod.fst := by
    intro k
    rw [← keys, List.mem_filter, mem_keys_everyNth positive, decide_eq_true_eq]
  have distinct : ks.Nodup ↔ ∀ k ∈ ks, timesSeen seen k ≤ wrap := by
    rw [← keys, nodup_everyNth_filter positive]
    simp only [List.mem_filter, mem_keys_everyNth positive, and_imp]
  constructor
  · intro nodup x under
    refine ⟨fun other shared => ?_, ?_⟩
    · have same := List.inj_on_of_nodup_map nodup ((mem_keys (x, other)).mpr ⟨shared, under⟩)
        ((mem_keys (x, typeHash)).mpr ⟨under, under⟩) rfl
      exact (Prod.mk.inj same).2
    · exact distinct.mp (List.Nodup.of_map Prod.fst nodup) _ ((mem_keys (x, typeHash)).mpr ⟨under, under⟩)
  · intro alone
    have typed : ∀ k ∈ ks, k = (k.1, typeHash) := by
      intro k member
      obtain ⟨known, under⟩ := (mem_keys k).mp member
      rw [← (alone k.1 under).1 k.2 known]
    refine List.Nodup.map_on ?_ (distinct.mpr fun k member => ?_)
    · intro k member k' member' same
      rw [typed k member, typed k' member', same]
    · rw [typed k member]
      exact (alone k.1 ((mem_keys k).mp member).2).2

/-- The candidates of a type that all buckets together load are the distinct chunks of the type. -/
def LoadedOnce (P : PriorityQueue FC cmp) (md5 : Bytes → Fp) (chunks : List ((Fp × Bytes) × Bytes)) (s : State)
    (typeName : Bytes) : Prop :=
  ∃ que, loadAll P s (md5 typeName) = some que ∧ ((P.contents que).map FC.key).Nodup ∧
    ∀ key, key ∈ (P.contents que).map FC.key ↔
      ∃ x, (x, typeName) ∈ chunks.map Prod.fst ∧ key = keyUnder (md5 typeName) x

/-- A chunk that occurs under the hash of the type occurs under its name and under no other hash, and
not so often that its count wraps. -/
def OneType (md5 : Bytes → Fp) (fp typeFp : Bytes) (typeName : Bytes) : Prop :=
  ∀ x other, (x, other) ∈ (chunksRead fp typeFp).map Prod.fst → md5 other = md5 typeName →
    (x, typeName) ∈ (chunksRead fp typeFp).map Prod.fst ∧
    (∀ third, (x, third) ∈ (chunksRead fp typeFp).map Prod.fst → md5 third = md5 typeName) ∧
    timesSeen (hashedChunks md5 fp typeFp) (x, md5 typeName) ≤ 2 ^ 31 + 2

theorem mem_hashedChunks {md5 : Bytes → Fp} {fp typeFp : Bytes} {x : Fp} :
    (x, typeHash) ∈ (hashedChunks md5 fp typeFp).map Prod.fst ↔
      ∃ name, (x, name) ∈ (chunksRead fp typeFp).map Prod.fst ∧ md5 name = typeHash := by
  rw [hashedChunks, List.map_map, List.mem_map]
  constructor
  · rintro ⟨⟨⟨y, name⟩, size⟩, member, same⟩
    cases same
    exact ⟨name, List.mem_map_of_mem member, rfl⟩
  · rintro ⟨name, member, rfl⟩
    obtain ⟨e, inside, same⟩ := List.mem_map.mp member
    exact ⟨e, inside, by rw [Function.comp_apply, same]⟩

theorem loadedOnce_iff (P : PriorityQueue FC cmp) (md5 : Bytes → Fp) (fp typeFp : Bytes)
    (read : readInChunks md5 fp typeFp = .ok s) (typeName : Bytes) :
    LoadedOnce P md5 (chunksRead fp typeFp) s typeName ↔ OneType md5 fp typeFp typeName := by
  obtain ⟨que, loaded, held⟩ := (readInChunks_represents read).loadAll (md5 typeName) P
  have unique : LoadedOnce P md5 (chunksRead fp typeFp) s typeName ↔ ((P.contents que).map FC.key).Nodup ∧
      ∀ key, key ∈ (P.contents que).map FC.key ↔
        ∃ x, (x, typeName) ∈ (chunksRead fp typeFp).map Prod.fst ∧ key = keyUnder (md5 typeName) x := by
    constructor
    · rintro ⟨que', loaded', rest⟩
      obtain rfl := Option.some.inj (loaded'.symm.trans loaded)
      exact rest
    · exact fun rest => ⟨que, loaded, rest⟩
  have members : ∀ key, key ∈ (P.contents que).map FC.key ↔
      ∃ x, (∃ other, (x, other) ∈ (chunksRead fp typeFp).map Prod.fst ∧ md5 other = md5 typeName) ∧
        key = keyUnder (md5 typeName) x := by
    intro key
    rw [held, Multiset.mem_coe, List.mem_map]
    simp only [← mem_hashedChunks, underType, List.mem_filter, decide_eq_true_eq, eq_comm (a := key)]
    have entered : ∀ x, (x, md5 typeName) ∈ (hashedChunks md5 fp typeFp).map Prod.fst →
        x ∈ (everyNth wrap (hashedChunks md5 fp typeFp)).map fun e => e.1.1 := by
      intro x under
      obtain ⟨e, member, same⟩ := List.mem_map.mp ((mem_keys_everyNth (p := wrap) (by decide)).mpr under)
      exact List.mem_map.mpr ⟨e, member, by rw [same]⟩
    constructor
    · rintro ⟨x, inside, same⟩
      exact ⟨x, inside.2, same⟩
    · rintro ⟨x, under, same⟩
      exact ⟨x, ⟨entered x under, under⟩, same⟩
  have once : ((P.contents que).map FC.key).Nodup ↔
      ∀ x, (∃ other, (x, other) ∈ (chunksRead fp typeFp).map Prod.fst ∧ md5 other = md5 typeName) →
        (∀ third, (x, third) ∈ (chunksRead fp typeFp).map Prod.fst → md5 third = md5 typeName) ∧
        timesSeen (hashedChunks md5 fp typeFp) (x, md5 typeName) ≤ wrap := by
    rw [held, Multiset.coe_nodup, List.nodup_map_iff (keyUnder_injective _), underType_nodup_iff]
    simp only [mem_hashedChunks, forall_exists_index, and_imp]
    refine forall_congr' fun x => forall_congr' fun other => forall_congr' fun member => forall_congr' fun same =>
      and_congr_left fun _ => ?_
    exact ⟨fun alone third inside => alone _ third inside rfl, fun alone _ third inside hash => hash ▸ alone third inside⟩
  rw [unique, once]
  constructor
  · rintro ⟨alone, exactly⟩ x other member hash
    obtain ⟨x', named, same⟩ := (exactly (keyUnder (md5 typeName) x)).mp
      ((members _).mpr ⟨x, ⟨other, member, hash⟩, rfl⟩)
    obtain rfl := keyUnder_injective _ same
    exact ⟨named, alone x ⟨other, member, hash⟩⟩
  · intro oneType
    constructor
    · rintro x ⟨other, member, hash⟩
      exact (oneType x other member hash).2
    · intro key
      rw [members]
      refine exists_congr fun x => and_congr_left fun _ => ?_
      constructor
      · rintro ⟨other, member, hash⟩
        exact (oneType x other member hash).1
      · exact fun named => ⟨typeName, named, rfl⟩

end Loading

/-! ### A chunk of two types -/

def typeDigest (s : Bytes) : Fp :=
  if s = chars ['t', 'x', 't'] then Fp.ofBytes [199, 130, 79, 61, 77, 95]
  else if s = chars ['p', 'd', 'f'] then Fp.ofBytes [67, 113, 117, 186, 65, 145]
  else Fp.ofBytes s

def sharedTrace : Bytes :=
  ReadChunks.traceFile [("1:0:0:0:0:0", "8"), ("2:0:0:0:0:0", "8"), ("1:0:0:0:0:0", "8")]

def sharedTypes : Bytes := (["txt", "2", "pdf", "1"].map fun line => chars line.toList ++ [10]).flatten

theorem loadedOnce_iff_shared : ∃ s, readInChunks typeDigest sharedTrace sharedTypes = .ok s ∧
    (LoadedOnce InferChunksType.listHeap typeDigest (chunksRead sharedTrace sharedTypes) s (chars ['t', 'x', 't']) ↔
      OneType typeDigest sharedTrace sharedTypes (chars ['t', 'x', 't'])) := by
  have finished : (readInChunks typeDigest sharedTrace sharedTypes).isOk := by decide +kernel
  cases read : readInChunks typeDigest sharedTrace sharedTypes with
  | error stop =>
    rw [read] at finished
    cases finished
  | ok s => exact ⟨s, rfl, loadedOnce_iff _ _ _ _ read _⟩

/-- The text type loads chunk 1 twice. -/
theorem loadedOnce_shared : ∃ s, readInChunks typeDigest sharedTrace sharedTypes = .ok s ∧
    ¬ LoadedOnce InferChunksType.listHeap typeDigest (chunksRead sharedTrace sharedTypes) s (chars ['t', 'x', 't']) := by
  have twice : (readInChunks typeDigest sharedTrace sharedTypes).toOption.map (fun s =>
      (loadAll InferChunksType.listHeap s (typeDigest (chars ['t', 'x', 't']))).map fun que =>
        decide ((InferChunksType.listHeap.contents que).map InferChunksType.FC.key).Nodup) =
      some (some false) := by
    decide +kernel
  cases read : readInChunks typeDigest sharedTrace sharedTypes with
  | error stop =>
    rw [read] at twice
    cases twice
  | ok s =>
    rw [read] at twice
    refine ⟨s, rfl, ?_⟩
    rintro ⟨que, loaded, nodup, -⟩
    have repeated := Option.some.inj twice
    dsimp only at repeated
    rw [loaded, Option.map_some, decide_eq_true nodup] at repeated
    cases Option.some.inj repeated

end EncryptedDedup.ReadTypes
