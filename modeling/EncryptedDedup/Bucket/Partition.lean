import EncryptedDedup.Bucket.ReadChunks
import EncryptedDedup.Bucket.InferChunks
import EncryptedDedup.Lib.FirstSeen
import Mathlib.Data.List.Count

/-!
# The two databases of `readChunksToDBs`

The size database partitions the fingerprints of the frequency database by the size they were
first seen with, and every count can be looked up again.
-/

namespace EncryptedDedup.ReadChunks

def linesTo (fps : List Bytes) (fp : Bytes) (k : Nat) : List Bytes :=
  fps.flatMap chunkLines ++ (chunkLines fp).take k

def seenBy (fps : List Bytes) : List (Fp × Bytes) := (fps.flatMap chunkLines).filterMap chunkOf

def seenTo (fps : List Bytes) (fp : Bytes) (k : Nat) : List (Fp × Bytes) :=
  (linesTo fps fp k).filterMap chunkOf

def occurrences (seen : List (Fp × Bytes)) (x : Fp) : Nat := (seen.map Prod.fst).count x

def pack (xs : List Fp) : Bytes := (xs.map Fp.bytes).flatten

theorem pack_append (xs ys : List Fp) : pack (xs ++ ys) = pack xs ++ pack ys := by
  simp [pack]

theorem length_pack (xs : List Fp) : (pack xs).length = fpSize * xs.length := by
  induction xs with
  | nil => rfl
  | cons x xs ih =>
    have here : pack (x :: xs) = x.bytes ++ pack xs := rfl
    rw [here, List.length_append, x.size_eq, ih, List.length_cons, Nat.mul_succ, Nat.add_comm]

theorem cut_pack (xs : List Fp) : cut fpSize (pack xs) = xs.map Fp.bytes := by
  apply cut_flatten (by decide)
  intro p member
  obtain ⟨x, -, rfl⟩ := List.mem_map.mp member
  exact x.size_eq

/-! ### The databases after a sequence of chunks -/

structure Represents (seen : List (Fp × Bytes)) (s : State) : Prop where
  counts : ∀ x, s.fcDb.get x = if x ∈ seen.map Prod.fst then some (decimal (occurrences seen x)) else none
  buckets : ∀ size, s.sfDb.get size = if group seen size = [] then none else some (pack (group seen size))

theorem represents_init : Represents [] State.init := ⟨fun _ => rfl, fun _ => rfl⟩

theorem Represents.restart {seen : List (Fp × Bytes)} {s : State} (kept : Represents seen s) :
    Represents seen s.restart := ⟨kept.counts, kept.buckets⟩

theorem occurrences_concat (seen : List (Fp × Bytes)) (x y : Fp) (size : Bytes) :
    occurrences (seen ++ [(x, size)]) y = occurrences seen y + if x = y then 1 else 0 := by
  simp [occurrences, List.count_singleton]

theorem occurrences_eq_zero {seen : List (Fp × Bytes)} {x : Fp} :
    occurrences seen x = 0 ↔ x ∉ seen.map Prod.fst := List.count_eq_zero

theorem occurrences_le_append (seen later : List (Fp × Bytes)) (x : Fp) :
    occurrences seen x ≤ occurrences (seen ++ later) x := by
  unfold occurrences
  rw [List.map_append, List.count_append]
  exact Nat.le_add_right _ _

/-- The frequency database counts the chunk, and the result is 1 for a new one only. -/
theorem insertFCdb_represents {seen : List (Fp × Bytes)} {s : State} (kept : Represents seen s) {x : Fp}
    (few : occurrences seen x < 2 ^ 31) :
    (insertFCdb s.fcDb x).1 = s.fcDb.put x (decimal (occurrences seen x + 1)) ∧
    ((insertFCdb s.fcDb x).2 = 1 ↔ x ∉ seen.map Prod.fst) := by
  unfold insertFCdb
  rw [kept.counts x]
  by_cases known : x ∈ seen.map Prod.fst
  · have some_before : occurrences seen x ≠ 0 := fun none_yet => occurrences_eq_zero.mp none_yet known
    have small : (occurrences seen x + 1) % 2 ^ 64 = occurrences seen x + 1 := by omega
    rw [if_pos known]
    dsimp only
    rw [toU64_atoi_decimal few, small]
    refine ⟨rfl, iff_of_false ?_ (not_not_intro known)⟩
    -- At 2^31 the `int` is negative, and below it is the count.
    rw [Int.bmod_def]
    split <;> omega
  · rw [if_neg known, occurrences_eq_zero.mpr known]
    exact ⟨by simp [decimal, chars]; rfl, iff_of_true rfl known⟩

theorem insertSFdb_represents {seen : List (Fp × Bytes)} {s : State} (kept : Represents seen s) (size : Bytes)
    (x : Fp) : insertSFdb s.sfDb size x.bytes = .ok (s.sfDb.put size (pack (group seen size ++ [x]))) := by
  have last : pack [x] = x.bytes := List.append_nil _
  unfold insertSFdb
  rw [kept.buckets size, pack_append, last]
  split
  · rename_i absent
    split at absent
    · rename_i none_yet
      rw [none_yet]
      rfl
    · cases absent
  · rename_i exs found
    split at found
    · cases found
    · obtain rfl := Option.some.inj found
      have whole : (pack (group seen size) ++ x.bytes).length % 6 = 0 := by
        rw [List.length_append, length_pack, x.size_eq, ← Nat.mul_succ]
        exact Nat.mul_mod_right 6 _
      rw [if_neg (not_not_intro whole)]

theorem insertChunk_known {s : State} {x : Fp} {size : Bytes} (known : (insertFCdb s.fcDb x).2 ≠ 1) :
    insertChunk s x size =
      .ok { s with
        totalLogicChunkNumber := s.totalLogicChunkNumber + 1
        fcDb := (insertFCdb s.fcDb x).1 } :=
  if_neg known

theorem insertChunk_new {s : State} {x : Fp} {size : Bytes} (new : (insertFCdb s.fcDb x).2 = 1)
    {sfDb : OrderedMap Bytes Bytes} (inserted : insertSFdb s.sfDb size x.bytes = .ok sfDb) :
    insertChunk s x size =
      .ok { s with
        totalLogicChunkNumber := s.totalLogicChunkNumber + 1
        fcDb := (insertFCdb s.fcDb x).1
        sfDb := sfDb
        totalUniqueChunkNumber := s.totalUniqueChunkNumber + 1 } := by
  refine (if_pos new).trans ?_
  show (insertSFdb s.sfDb size x.bytes >>= _) = _
  rw [inserted]
  rfl

theorem insertChunk_represents {seen : List (Fp × Bytes)} {s : State} (kept : Represents seen s) {x : Fp}
    (size : Bytes) (few : occurrences seen x < 2 ^ 31) :
    ∃ s', insertChunk s x size = .ok s' ∧ Represents (seen ++ [(x, size)]) s' := by
  obtain ⟨counted, new⟩ := insertFCdb_represents kept few
  have counts : ∀ y, ((insertFCdb s.fcDb x).1).get y =
      if y ∈ (seen ++ [(x, size)]).map Prod.fst then
        some (decimal (occurrences (seen ++ [(x, size)]) y))
      else none := by
    intro y
    rw [counted, OrderedMap.get_put, kept.counts y, occurrences_concat, List.map_append, List.map_singleton]
    by_cases same : y = x
    · subst same
      simp
    · simp only [List.mem_append, List.mem_singleton, same, Ne.symm same, or_false, if_false, Nat.add_zero]
  by_cases known : x ∈ seen.map Prod.fst
  · refine ⟨_, insertChunk_known fun one => new.mp one known, counts, fun label => ?_⟩
    rw [group_concat_old known]
    exact kept.buckets label
  · refine ⟨_, insertChunk_new (new.mpr known) (insertSFdb_represents kept size x), counts, fun label => ?_⟩
    rw [group_concat_new known]
    show (s.sfDb.put size (pack (group seen size ++ [x]))).get label = _
    rw [OrderedMap.get_put]
    by_cases same : label = size
    · subst same
      simp
    · rw [if_neg same, if_neg same, kept.buckets label]

theorem foldlM_readLine {seen : List (Fp × Bytes)} {s : State} (kept : Represents seen s) (lines : List Bytes)
    (few : ∀ x, occurrences (seen ++ lines.filterMap chunkOf) x ≤ 2 ^ 31) :
    (lines.foldlM readLine s = .error .nullSize ∧ ∃ line ∈ lines, chunkOf line = none) ∨
    ∃ s', lines.foldlM readLine s = .ok s' ∧ Represents (seen ++ lines.filterMap chunkOf) s' := by
  induction lines generalizing seen s with
  | nil => exact Or.inr ⟨s, rfl, by simpa using kept⟩
  | cons line lines ih =>
    rw [List.foldlM_cons, readLine]
    cases chunk : chunkOf line with
    | none => exact Or.inl ⟨rfl, line, List.mem_cons_self, chunk⟩
    | some e =>
      obtain ⟨x, size⟩ := e
      rw [List.filterMap_cons_some chunk, List.append_cons] at few ⊢
      have before : occurrences seen x < 2 ^ 31 := by
        have after := few x
        have here := occurrences_concat seen x x size
        have grown := occurrences_le_append (seen ++ [(x, size)]) (lines.filterMap chunkOf) x
        rw [if_pos rfl] at here
        omega
      obtain ⟨s₁, inserted, kept₁⟩ := insertChunk_represents kept size before
      dsimp only
      rw [inserted]
      rcases ih kept₁ few with ⟨stopped, l, member, sizeless⟩ | finished
      · exact Or.inl ⟨stopped, l, List.mem_cons_of_mem _ member, sizeless⟩
      · exact Or.inr finished

theorem foldlM_readInChunks {seen : List (Fp × Bytes)} {s : State} (kept : Represents seen s) (fps : List Bytes)
    (few : ∀ x, occurrences (seen ++ seenBy fps) x ≤ 2 ^ 31) :
    (fps.foldlM readInChunks s = .error .nullSize ∧ ∃ line ∈ fps.flatMap chunkLines, chunkOf line = none) ∨
    ∃ s', fps.foldlM readInChunks s = .ok s' ∧ Represents (seen ++ seenBy fps) s' := by
  induction fps generalizing seen s with
  | nil => exact Or.inr ⟨s, rfl, by simpa [seenBy] using kept⟩
  | cons fp fps ih =>
    have split : seenBy (fp :: fps) = (chunkLines fp).filterMap chunkOf ++ seenBy fps := by
      rw [seenBy, List.flatMap_cons, List.filterMap_append, seenBy]
    rw [split, ← List.append_assoc] at few ⊢
    rw [List.flatMap_cons, List.foldlM_cons, readInChunks]
    have here : ∀ x, occurrences (seen ++ (chunkLines fp).filterMap chunkOf) x ≤ 2 ^ 31 :=
      fun x => (occurrences_le_append _ _ x).trans (few x)
    rcases foldlM_readLine kept.restart (chunkLines fp) here with
      ⟨stopped, line, member, sizeless⟩ | ⟨s₁, finished, kept₁⟩
    · rw [stopped]
      exact Or.inl ⟨rfl, line, List.mem_append_left _ member, sizeless⟩
    · rw [finished]
      rcases ih kept₁ few with ⟨stopped, line, member, sizeless⟩ | rest
      · exact Or.inl ⟨stopped, line, List.mem_append_right _ member, sizeless⟩
      · exact Or.inr rest

theorem feed_represents {fps : List Bytes} {s : State} (fed : feed fps = .ok s)
    (few : ∀ x, occurrences (seenBy fps) x ≤ 2 ^ 31) : Represents (seenBy fps) s := by
  rcases foldlM_readInChunks represents_init fps few with ⟨stopped, -⟩ | ⟨s', finished, kept⟩
  · rw [feed, stopped] at fed
    cases fed
  · obtain rfl : s' = s := Except.ok.inj (finished.symm.trans fed)
    exact kept

theorem feed_isOk {fps : List Bytes} (few : ∀ x, occurrences (seenBy fps) x ≤ 2 ^ 31)
    (sized : ∀ line ∈ fps.flatMap chunkLines, chunkOf line ≠ none) : ∃ s, feed fps = .ok s := by
  rcases foldlM_readInChunks represents_init fps few with ⟨-, line, member, sizeless⟩ | ⟨s, finished, -⟩
  · exact absurd sizeless (sized line member)
  · exact ⟨s, finished⟩

theorem readTo_represents (fps : List Bytes) (fp : Bytes) (k : Nat)
    (few : ∀ x, occurrences (seenTo fps fp k) x ≤ 2 ^ 31) :
    (readTo fps fp k = .error .nullSize ∧ ∃ line ∈ linesTo fps fp k, chunkOf line = none) ∨
    ∃ s, readTo fps fp k = .ok s ∧ Represents (seenTo fps fp k) s := by
  have split : seenTo fps fp k = seenBy fps ++ ((chunkLines fp).take k).filterMap chunkOf := by
    rw [seenTo, linesTo, List.filterMap_append, seenBy]
  rw [split] at few ⊢
  have before : ∀ x, occurrences (seenBy fps) x ≤ 2 ^ 31 :=
    fun x => (occurrences_le_append _ _ x).trans (few x)
  unfold readTo feed
  rcases foldlM_readInChunks represents_init fps before with
    ⟨stopped, line, member, sizeless⟩ | ⟨s, finished, kept⟩
  · rw [stopped]
    exact Or.inl ⟨rfl, line, List.mem_append_left _ member, sizeless⟩
  · rw [finished]
    rcases foldlM_readLine kept.restart ((chunkLines fp).take k) few with
      ⟨stopped, line, member, sizeless⟩ | rest
    · exact Or.inl ⟨stopped, line, List.mem_append_right _ member, sizeless⟩
    · exact Or.inr rest

/-! ### The partition -/

theorem Represents.values {seen : List (Fp × Bytes)} {s : State} (kept : Represents seen s) :
    (s.sfDb.entries.map Prod.snd).flatten = pack (s.sfDb.keys.flatMap (group seen)) := by
  have each : ∀ e ∈ s.sfDb.entries, e.2 = pack (group seen e.1) := by
    intro e member
    have found := (OrderedMap.get_eq_some s.sfDb e.1 e.2).mpr member
    rw [kept.buckets e.1] at found
    split at found
    · cases found
    · exact (Option.some.inj found).symm
  have gathered : ∀ es : List (Bytes × Bytes), (∀ e ∈ es, e.2 = pack (group seen e.1)) →
      (es.map Prod.snd).flatten = pack ((es.map Prod.fst).flatMap (group seen)) := by
    intro es
    induction es with
    | nil => exact fun _ => rfl
    | cons e es ih =>
      intro each
      rw [List.map_cons, List.flatten_cons, List.map_cons, List.flatMap_cons, pack_append,
        ← each e List.mem_cons_self, ih fun e member => each e (List.mem_cons_of_mem _ member)]
  exact gathered _ each

theorem Represents.mem_sizes {seen : List (Fp × Bytes)} {s : State} (kept : Represents seen s) {size : Bytes} :
    size ∈ s.sfDb.keys ↔ group seen size ≠ [] := by
  rw [OrderedMap.mem_keys, kept.buckets size]
  split
  · rename_i absent
    simp [absent]
  · rename_i present
    simp [present]

theorem Represents.mem_fingerprints {seen : List (Fp × Bytes)} {s : State} (kept : Represents seen s) {x : Fp} :
    x ∈ s.fcDb.keys ↔ x ∈ seen.map Prod.fst := by
  rw [OrderedMap.mem_keys, kept.counts x]
  split
  · rename_i known
    exact iff_of_true ⟨_, rfl⟩ known
  · rename_i new
    exact iff_of_false (fun found => nomatch found) new

theorem Represents.fingerprints {seen : List (Fp × Bytes)} {s : State} (kept : Represents seen s) :
    (s.sfDb.keys.flatMap (group seen)).Perm s.fcDb.keys := by
  have apart : (s.sfDb.keys.flatMap (group seen)).Nodup := by
    rw [List.nodup_flatMap]
    exact ⟨fun size _ => group_nodup seen size,
      s.sfDb.keys_nodup.imp fun different => group_disjoint seen different⟩
  rw [List.perm_ext_iff_of_nodup apart s.fcDb.keys_nodup]
  intro x
  rw [kept.mem_fingerprints, List.mem_flatMap]
  constructor
  · rintro ⟨size, -, member⟩
    exact mem_keys_of_mem_group member
  · intro known
    obtain ⟨size, first⟩ := Option.isSome_iff_exists.mp (firstLabel_isSome.mpr known)
    have member := mem_group.mpr first
    exact ⟨size, kept.mem_sizes.mpr (List.ne_nil_of_mem member), member⟩

def loaded (seen : List (Fp × Bytes)) (size : Bytes) : List InferChunks.FC :=
  (group seen size).map fun x => ⟨x, occurrences seen x⟩

theorem loadN_pack (P : PriorityQueue InferChunks.FC InferChunks.cmp) {fcDb : OrderedMap Fp Bytes}
    {count : Fp → Nat} (xs : List Fp) (n : Nat) (enough : xs.length ≤ n)
    (counted : ∀ x ∈ xs, fcDb.get x = some (decimal (count x)) ∧ count x < 2 ^ 31) (que : P.Heap) :
    ∃ que', InferChunks.loadN P fcDb n (pack xs) que = some que' ∧
      P.contents que' = (xs.map fun x => (⟨x, count x⟩ : InferChunks.FC) : List _) + P.contents que := by
  induction xs generalizing n que with
  | nil => exact ⟨que, by simp [pack, InferChunks.loadN], by simp⟩
  | cons x xs ih =>
    rw [List.length_cons] at enough
    obtain ⟨n, rfl⟩ : ∃ m, n = m + 1 := ⟨n - 1, by omega⟩
    obtain ⟨stored, few⟩ := counted x List.mem_cons_self
    obtain ⟨que', rest, held⟩ := ih n (by omega) (fun y member => counted y (List.mem_cons_of_mem _ member))
      (P.push que ⟨x, count x⟩)
    refine ⟨que', ?_, ?_⟩
    · have here : pack (x :: xs) = x.bytes ++ pack xs := rfl
      have filled : pack (x :: xs) ≠ [] := by
        rw [← List.length_pos_iff, length_pack]
        exact Nat.mul_pos (by decide) (Nat.succ_pos _)
      rw [InferChunks.loadN.eq_3 _ _ _ _ _ filled, here, List.take_left' x.size_eq, List.drop_left' x.size_eq,
        InferChunks.lookup, if_pos x.size_eq, Fp.ofBytes_bytes, stored]
      dsimp only [Option.bind_eq_bind, Option.bind_some]
      rw [toU64_atoi_decimal few]
      exact rest
    · rw [held, P.contents_push, List.map_cons, ← Multiset.cons_coe, Multiset.add_cons, Multiset.cons_add]

theorem Represents.load {seen : List (Fp × Bytes)} {s : State} (kept : Represents seen s)
    (few : ∀ x, occurrences seen x < 2 ^ 31) (P : PriorityQueue InferChunks.FC InferChunks.cmp)
    {size set : Bytes} (found : s.sfDb.get size = some set) (que : P.Heap) :
    ∃ que', InferChunks.load P s.fcDb set que = some que' ∧
      P.contents que' = (loaded seen size : Multiset _) + P.contents que := by
  rw [kept.buckets size] at found
  split at found
  · cases found
  · obtain rfl := Option.some.inj found
    apply loadN_pack P (group seen size) _ _ _ que
    · rw [length_pack]
      exact Nat.le_mul_of_pos_left _ (by decide)
    · intro x member
      rw [kept.counts x, if_pos (mem_keys_of_mem_group member)]
      exact ⟨rfl, few x⟩

structure Partition (seen : List (Fp × Bytes)) (s : State) : Prop where
  counts : ∀ x, s.fcDb.get x = if x ∈ seen.map Prod.fst then some (decimal (occurrences seen x)) else none
  /-- The values of the size database, cut into fingerprints, are its keys. -/
  fingerprints : (cut fpSize (s.sfDb.entries.map Prod.snd).flatten).Perm (s.fcDb.keys.map Fp.bytes)
  /-- A fingerprint is in the bucket of the size it first occurred with. -/
  sizes : ∀ x size, firstLabel seen x = some size →
    ∃ set, s.sfDb.get size = some set ∧ x.bytes ∈ cut fpSize set
  lookups : ∀ e ∈ s.sfDb.entries, ∀ (P : PriorityQueue InferChunks.FC InferChunks.cmp) (que : P.Heap),
    (InferChunks.load P s.fcDb e.2 que).isSome

theorem Represents.partition {seen : List (Fp × Bytes)} {s : State} (kept : Represents seen s)
    (few : ∀ x, occurrences seen x < 2 ^ 31) : Partition seen s where
  counts := kept.counts
  fingerprints := by
    rw [kept.values, cut_pack]
    exact kept.fingerprints.map Fp.bytes
  sizes x size first := by
    have member := mem_group.mpr first
    refine ⟨pack (group seen size), ?_, ?_⟩
    · rw [kept.buckets size, if_neg (List.ne_nil_of_mem member)]
    · rw [cut_pack]
      exact List.mem_map_of_mem member
  lookups e member P que := by
    have found := (OrderedMap.get_eq_some s.sfDb e.1 e.2).mpr member
    obtain ⟨que', loaded, -⟩ := kept.load few P found que
    exact Option.isSome_iff_exists.mpr ⟨que', loaded⟩

/-- After every chunk of a sequence of traces the two databases agree with what was read, and
`insertSFdb` has not exited. A run only ends early at a line without a chunk size. -/
theorem readTo_partition (fps : List Bytes) (fp : Bytes) (k : Nat)
    (few : ∀ x, occurrences (seenTo fps fp k) x < 2 ^ 31) :
    readTo fps fp k ≠ .error .insertKeyError ∧
    ((∀ line ∈ linesTo fps fp k, chunkOf line ≠ none) → ∃ s, readTo fps fp k = .ok s) ∧
    ∀ s, readTo fps fp k = .ok s → Partition (seenTo fps fp k) s := by
  rcases readTo_represents fps fp k fun x => (few x).le with ⟨stopped, line, member, sizeless⟩ | ⟨s, finished, kept⟩
  · rw [stopped]
    refine ⟨fun wrong => (nomatch wrong), fun sized => absurd sizeless (sized line member), fun s wrong => (nomatch wrong)⟩
  · rw [finished]
    refine ⟨fun wrong => (nomatch wrong), fun _ => ⟨s, rfl⟩, fun s' same => ?_⟩
    obtain rfl := Except.ok.inj same
    exact kept.partition few

def chunkLine (chunk : String × String) : Bytes := chars (chunk.1.toList ++ '\t' :: chunk.2.toList)

def traceFile (chunks : List (String × String)) : Bytes :=
  ((chars ['C', 'h', 'u', 'n', 'k'] :: chunks.map chunkLine).map (· ++ [10])).flatten

theorem chunkLines_traceFile {chunks : List (String × String)}
    (short : ∀ chunk ∈ chunks, (chunkLine chunk).length < 255) (plain : ∀ chunk ∈ chunks, (10 : UInt8) ∉ chunkLine chunk) :
    chunkLines (traceFile chunks) = chunks.map fun chunk => chunkLine chunk ++ [10] := by
  rw [chunkLines, traceFile, bufferLines_flatten, List.map_cons, List.drop_one, List.tail_cons, List.map_map]
  · rfl
  · rw [List.forall_mem_cons, List.forall_mem_map]
    exact ⟨by decide, fun chunk member => Nat.succ_lt_succ (short chunk member)⟩
  · rw [List.forall_mem_cons, List.forall_mem_map]
    exact ⟨by decide, plain⟩

def trace₁ : Bytes := traceFile [("1:0:0:0:0:0", "8"), ("2:0:0:0:0:0", "8"), ("1:0:0:0:0:0", "8")]

def trace₂ : Bytes := traceFile [("1:0:0:0:0:0", "4"), ("3:0:0:0:0:0", "4")]

theorem readTo_partition_resized :
    readTo [trace₁] trace₂ 1 ≠ .error .insertKeyError ∧
    ((∀ line ∈ linesTo [trace₁] trace₂ 1, chunkOf line ≠ none) → ∃ s, readTo [trace₁] trace₂ 1 = .ok s) ∧
    ∀ s, readTo [trace₁] trace₂ 1 = .ok s → Partition (seenTo [trace₁] trace₂ 1) s := by
  apply readTo_partition
  intro x
  refine lt_of_le_of_lt List.count_le_length ?_
  decide +kernel

end EncryptedDedup.ReadChunks
