import EncryptedDedup.Bucket.IntCounters
import EncryptedDedup.Bucket.CompareDBRun
import Mathlib.Data.List.Dedup

/-!
# The typed and the untyped reader

`readInChunkToDBsFileType` and `readChunksToDBs` on one trace: when they count the same.
-/

namespace EncryptedDedup.ReadTypes
open TypeList

/-! ### The untyped reader -/

/-- The counts of the chunks so far, however many; the values of the size database are whole fingerprints. -/
structure Counted (seen : List Fp) (s : ReadChunks.State) : Prop where
  counts : ∀ x, s.fcDb.get x = if x ∈ seen then some (decimal (counter (seen.count x))) else none
  whole : ∀ size value, s.sfDb.get size = some value → value.length % 6 = 0
  total : s.totalLogicChunkNumber = seen.length

theorem counted_init : Counted [] ReadChunks.State.init := ⟨fun _ => rfl, fun _ _ none => (nomatch none), rfl⟩

theorem insertFCdb_counted {seen : List Fp} {s : ReadChunks.State} (counted : Counted seen s) (x : Fp) :
    (ReadChunks.insertFCdb s.fcDb x).1 = s.fcDb.put x (decimal (counter (seen.count x + 1))) := by
  unfold ReadChunks.insertFCdb
  rw [counted.counts x]
  by_cases known : x ∈ seen
  · rw [if_pos known]
    dsimp only
    rw [counter_succ]
  · rw [if_neg known, List.count_eq_zero.mpr known]
    have one : decimal (counter (0 + 1)) = chars ['1'] := by decide +kernel
    rw [one]

theorem insertSFdb_whole {sfDb : OrderedMap Bytes Bytes}
    (whole : ∀ size value, sfDb.get size = some value → value.length % 6 = 0) (size : Bytes) (x : Fp) :
    ∃ sfDb', ReadChunks.insertSFdb sfDb size x.bytes = .ok sfDb' ∧
      ∀ size value, sfDb'.get size = some value → value.length % 6 = 0 := by
  have six : x.bytes.length = 6 := x.size_eq
  have kept : ∀ value, value.length % 6 = 0 → ∀ size' value', (sfDb.put size value).get size' = some value' →
      value'.length % 6 = 0 := by
    intro value fits size' value' found
    rw [OrderedMap.get_put] at found
    split at found
    · rwa [← Option.some.inj found]
    · exact whole size' value' found
  unfold ReadChunks.insertSFdb
  cases found : sfDb.get size with
  | none => exact ⟨_, rfl, kept _ (by rw [six])⟩
  | some exs =>
    have fits := whole size exs found
    have longer : (exs ++ x.bytes).length % 6 = 0 := by
      rw [List.length_append, six]
      omega
    exact ⟨_, if_neg (not_not_intro longer), kept _ longer⟩

theorem insertChunk_counted {seen : List Fp} {s : ReadChunks.State} (counted : Counted seen s) (x : Fp) (size : Bytes) :
    ∃ s', ReadChunks.insertChunk s x size = .ok s' ∧ Counted (seen ++ [x]) s' := by
  have counts : ∀ y, ((ReadChunks.insertFCdb s.fcDb x).1).get y =
      if y ∈ seen ++ [x] then some (decimal (counter ((seen ++ [x]).count y))) else none := by
    intro y
    rw [insertFCdb_counted counted, OrderedMap.get_put, counted.counts y, List.count_append, List.count_singleton]
    by_cases same : y = x
    · subst same
      simp
    · simp [same, Ne.symm same]
  by_cases new : (ReadChunks.insertFCdb s.fcDb x).2 = 1
  · obtain ⟨sfDb, inserted, whole⟩ := insertSFdb_whole counted.whole size x
    refine ⟨_, ReadChunks.insertChunk_new new inserted, counts, whole, ?_⟩
    rw [List.length_append, ← counted.total]
    rfl
  · refine ⟨_, ReadChunks.insertChunk_known new, counts, counted.whole, ?_⟩
    rw [List.length_append, ← counted.total]
    rfl

def Sized (lines : List Bytes) : Prop := ∀ line ∈ lines, (readChunk line).2.isSome

def chunksOf (lines : List Bytes) : List Fp := lines.map fun line => (readChunk line).1

theorem foldlM_counted {lines : List Bytes} (sized : Sized lines) {seen : List Fp} {s : ReadChunks.State}
    (counted : Counted seen s) :
    ∃ s', lines.foldlM ReadChunks.readLine s = .ok s' ∧ Counted (seen ++ chunksOf lines) s' := by
  induction lines generalizing seen s with
  | nil => exact ⟨s, rfl, by simpa [chunksOf] using counted⟩
  | cons line lines ih =>
    obtain ⟨here, later⟩ := List.forall_mem_cons.mp sized
    obtain ⟨item, found⟩ := Option.isSome_iff_exists.mp here
    obtain ⟨s₁, inserted, counted₁⟩ := insertChunk_counted counted (readChunk line).1 (decimal (toU64 (atoi item)))
    obtain ⟨s', rest, counted'⟩ := ih later counted₁
    refine ⟨s', ?_, ?_⟩
    · have step : ReadChunks.readLine s line = .ok s₁ := by
        unfold ReadChunks.readLine ReadChunks.chunkOf
        rw [found]
        exact inserted
      rw [List.foldlM_cons, step]
      exact rest
    · rw [List.append_assoc] at counted'
      exact counted'

theorem sized_of_finished {lines : List Bytes} {s s' : ReadChunks.State}
    (finished : lines.foldlM ReadChunks.readLine s = .ok s') : Sized lines := by
  induction lines generalizing s with
  | nil => exact fun _ member => absurd member List.not_mem_nil
  | cons line lines ih =>
    rw [List.foldlM_cons] at finished
    cases first : ReadChunks.readLine s line with
    | error stop =>
      rw [first] at finished
      cases finished
    | ok s₁ =>
      rw [first] at finished
      refine List.forall_mem_cons.mpr ⟨?_, ih finished⟩
      unfold ReadChunks.readLine ReadChunks.chunkOf at first
      cases found : (readChunk line).2 with
      | none =>
        rw [found] at first
        cases first
      | some item => rfl

/-! ### The typed reader -/

def typed (typeHash : Fp) (lines : List Bytes) : List ((Fp × Fp) × Bytes) := lines.filterMap (chunkUnder typeHash)

theorem readLine_sized {seen : List ((Fp × Fp) × Bytes)} {s : State} (kept : Represents seen s) {line : Bytes}
    {rest : List Bytes} (lines : s.reader.lines = line :: rest) (sized : (readChunk line).2.isSome) (typeHash : Fp) :
    ∃ s', readLine typeHash.bytes s = .ok s' ∧ Represents (seen ++ typed typeHash [line]) s' ∧
      s'.reader.lines = rest ∧ s'.tDb = s.tDb ∧ s'.totalLogicChunkNumber = s.totalLogicChunkNumber + 1 := by
  have buffer : s.reader.buffer = line := by rw [Reader.buffer, lines]; rfl
  have next : s.reader.next.lines = rest := by rw [Reader.next, lines]; rfl
  obtain ⟨item, found⟩ := Option.isSome_iff_exists.mp sized
  have chunk : chunkOf line = some ((readChunk line).1, decimal (bucketSize (toU64 (atoi item)))) := by
    rw [chunkOf, found]
    rfl
  have before : Represents seen
      { s with reader := s.reader.next, totalLogicChunkNumber := s.totalLogicChunkNumber + 1 } :=
    ⟨kept.counts, kept.buckets⟩
  obtain ⟨fcDb, sfDb, inserted, kept'⟩ := insertChunk_represents before (readChunk line).1 typeHash
    (decimal (bucketSize (toU64 (atoi item))))
  refine ⟨{ s with
      fcDb := fcDb
      sfDb := sfDb
      reader := s.reader.next
      totalLogicChunkNumber := s.totalLogicChunkNumber + 1 }, ?_, ?_, next, rfl, rfl⟩
  · unfold readLine
    rw [buffer]
    dsimp only
    rw [chunk]
    exact inserted
  · have added : typed typeHash [line] = [(((readChunk line).1, typeHash), decimal (bucketSize (toU64 (atoi item))))] := by
      have under : chunkUnder typeHash line =
          some (((readChunk line).1, typeHash), decimal (bucketSize (toU64 (atoi item)))) := by
        rw [chunkUnder, chunk]
        rfl
      rw [typed, List.filterMap_cons_some under]
      rfl
    rw [added]
    exact kept'

theorem readLines_sized (typeHash : Fp) (n : Nat) {seen : List ((Fp × Fp) × Bytes)} {s : State}
    (kept : Represents seen s) (sized : Sized s.reader.lines) (enough : n ≤ s.reader.lines.length) :
    ∃ s', readLines typeHash.bytes n s = .ok s' ∧ Represents (seen ++ typed typeHash (s.reader.lines.take n)) s' ∧
      s'.reader.lines = s.reader.lines.drop n ∧ s'.tDb = s.tDb ∧
      s'.totalLogicChunkNumber = s.totalLogicChunkNumber + n := by
  induction n generalizing seen s with
  | zero => exact ⟨s, rfl, by simpa [typed] using kept, rfl, rfl, rfl⟩
  | succ n ih =>
    obtain ⟨line, rest, lines⟩ := List.exists_cons_of_length_pos (Nat.lt_of_lt_of_le (Nat.succ_pos n) enough)
    rw [lines] at sized enough
    obtain ⟨here, later⟩ := List.forall_mem_cons.mp sized
    obtain ⟨s₁, first, kept₁, left, tDb, total⟩ := readLine_sized kept lines here typeHash
    rw [List.length_cons] at enough
    obtain ⟨s', finished, kept', left', tDb', total'⟩ := ih kept₁ (by rwa [left]) (by rw [left]; omega)
    refine ⟨s', ?_, ?_, ?_, tDb'.trans tDb, ?_⟩
    · rw [readLines, first]
      exact finished
    · rw [left, List.append_assoc] at kept'
      have whole : typed typeHash [line] ++ typed typeHash (rest.take n) = typed typeHash (line :: rest.take n) := by
        rw [typed, typed, typed, ← List.filterMap_append]
        rfl
      rw [lines, List.take_succ_cons, ← whole]
      exact kept'
    · rw [left', left, lines, List.drop_succ_cons]
    · rw [total', total]
      omega

theorem readFile_sized (md5 : Bytes → Fp) {seen : List ((Fp × Fp) × Bytes)} {s : State} (kept : Represents seen s)
    (sized : Sized s.reader.lines) {file : Bytes × Nat} (enough : file.2 ≤ s.reader.lines.length) :
    ∃ s', readFile md5 s file = .ok s' ∧
      Represents (seen ++ typed (md5 file.1) (s.reader.lines.take file.2)) s' ∧
      s'.reader.lines = s.reader.lines.drop file.2 ∧ s'.tDb = insertTypeDB s.tDb file.1 file.2 ∧
      s'.totalLogicChunkNumber = s.totalLogicChunkNumber + file.2 := by
  have before : Represents seen
      { s with
        tDb := insertTypeDB s.tDb file.1 file.2
        tpDb := insertTypeDBPair s.tpDb file.1 (md5 file.1).bytes } := ⟨kept.counts, kept.buckets⟩
  exact readLines_sized (md5 file.1) file.2 before sized enough

/-- The chunks of the lines, each under the hash of the type of its file. -/
def chunksUnder (md5 : Bytes → Fp) (files : List (Bytes × Nat)) (lines : List Bytes) : List ((Fp × Fp) × Bytes) :=
  (assign files lines).filterMap (hashed md5)

theorem chunksUnder_cons (md5 : Bytes → Fp) (file : Bytes × Nat) (files : List (Bytes × Nat)) {lines : List Bytes}
    (enough : file.2 ≤ lines.length) :
    chunksUnder md5 (file :: files) lines =
      typed (md5 file.1) (lines.take file.2) ++ chunksUnder md5 files (lines.drop file.2) := by
  obtain ⟨itemN, n⟩ := file
  have own : (lines.take n).length = n := List.length_take_of_le enough
  have split := assign_append itemN files (lines.take n) (lines.drop n)
  rw [own, List.take_append_drop] at split
  rw [chunksUnder, split, List.filterMap_append, List.filterMap_map]
  rfl

theorem foldlM_sized (md5 : Bytes → Fp) (files : List (Bytes × Nat)) {seen : List ((Fp × Fp) × Bytes)} {s : State}
    (kept : Represents seen s) (sized : Sized s.reader.lines)
    (enough : (files.map Prod.snd).sum ≤ s.reader.lines.length) :
    ∃ s', files.foldlM (readFile md5) s = .ok s' ∧
      Represents (seen ++ chunksUnder md5 files s.reader.lines) s' ∧
      s'.tDb = files.foldl (fun tDb f => insertTypeDB tDb f.1 f.2) s.tDb ∧
      s'.totalLogicChunkNumber = s.totalLogicChunkNumber + (files.map Prod.snd).sum := by
  induction files generalizing seen s with
  | nil => exact ⟨s, rfl, by simpa [chunksUnder, assign] using kept, rfl, rfl⟩
  | cons file files ih =>
    rw [List.map_cons, List.sum_cons] at enough
    obtain ⟨s₁, first, kept₁, left, tDb, total⟩ := readFile_sized md5 kept sized (show file.2 ≤ _ by omega)
    have sized₁ : Sized s₁.reader.lines := by
      rw [left]
      exact fun line member => sized line (List.mem_of_mem_drop member)
    obtain ⟨s', rest, kept', tDb', total'⟩ := ih kept₁ sized₁ (by rw [left, List.length_drop]; omega)
    refine ⟨s', ?_, ?_, ?_, ?_⟩
    · rw [List.foldlM_cons, first]
      exact rest
    · rw [left, List.append_assoc, ← chunksUnder_cons md5 file files (by omega)] at kept'
      exact kept'
    · rw [tDb', tDb, List.foldl_cons]
    · rw [total', total, List.map_cons, List.sum_cons, Nat.add_assoc]

/-! ### What a finished run has counted -/

theorem insertChunk_finished {s s' : State} {typeHashStr : Bytes} {x : Fp} {size : Bytes}
    (finished : insertChunk s typeHashStr x size = .ok s') :
    s'.fcDb = (insertFCDB s.fcDb (x.bytes ++ typeHashStr)).1 ∧ s'.totalLogicChunkNumber = s.totalLogicChunkNumber := by
  unfold insertChunk at finished
  dsimp only at finished
  split at finished
  · cases sfDb : insertSFDB s.sfDb size x.bytes with
    | error stop =>
      rw [sfDb] at finished
      cases finished
    | ok sfDb' =>
      rw [sfDb] at finished
      obtain rfl := Except.ok.inj finished
      exact ⟨rfl, rfl⟩
  · obtain rfl := Except.ok.inj finished
    exact ⟨rfl, rfl⟩

/-- Every key is a fingerprint followed by a hash. -/
def Paired (fcDb : OrderedMap Bytes Bytes) : Prop := ∀ k ∈ fcDb.keys, ∃ x typeHash : Fp, k = x.bytes ++ typeHash.bytes

theorem insertFCDB_paired {fcDb : OrderedMap Bytes Bytes} (paired : Paired fcDb) (x typeHash : Fp) :
    Paired (insertFCDB fcDb (x.bytes ++ typeHash.bytes)).1 := by
  have added : ∀ value, Paired (fcDb.put (x.bytes ++ typeHash.bytes) value) := by
    intro value k member
    rcases OrderedMap.mem_keys_put.mp member with rfl | known
    · exact ⟨x, typeHash, rfl⟩
    · exact paired k known
  unfold insertFCDB
  split
  · exact added _
  · exact added _

theorem readLines_finished {typeHash : Fp} (n : Nat) {s s' : State} (paired : Paired s.fcDb)
    (finished : readLines typeHash.bytes n s = .ok s') :
    Paired s'.fcDb ∧ s'.totalLogicChunkNumber = s.totalLogicChunkNumber + n := by
  induction n generalizing s with
  | zero =>
    obtain rfl := Except.ok.inj finished
    exact ⟨paired, rfl⟩
  | succ n ih =>
    rw [readLines] at finished
    cases first : readLine typeHash.bytes s with
    | error stop =>
      rw [first] at finished
      cases finished
    | ok s₁ =>
      rw [first] at finished
      unfold readLine at first
      dsimp only at first
      split at first
      · cases first
      · obtain ⟨fcDb, total⟩ := insertChunk_finished first
        obtain ⟨paired', total'⟩ := ih (by rw [fcDb]; exact insertFCDB_paired paired _ _) finished
        refine ⟨paired', ?_⟩
        rw [total', total]
        dsimp only
        omega

theorem foldlM_finished {md5 : Bytes → Fp} (files : List (Bytes × Nat)) {s s' : State} (paired : Paired s.fcDb)
    (finished : files.foldlM (readFile md5) s = .ok s') :
    Paired s'.fcDb ∧ s'.totalLogicChunkNumber = s.totalLogicChunkNumber + (files.map Prod.snd).sum := by
  induction files generalizing s with
  | nil =>
    obtain rfl := Except.ok.inj finished
    exact ⟨paired, rfl⟩
  | cons file files ih =>
    rw [List.foldlM_cons] at finished
    cases first : readFile md5 s file with
    | error stop =>
      rw [first] at finished
      cases finished
    | ok s₁ =>
      rw [first] at finished
      have started : Paired
          { s with
            tDb := insertTypeDB s.tDb file.1 file.2
            tpDb := insertTypeDBPair s.tpDb file.1 (md5 file.1).bytes }.fcDb := paired
      obtain ⟨paired₁, total⟩ := readLines_finished file.2 started first
      obtain ⟨paired', total'⟩ := ih paired₁ finished
      refine ⟨paired', ?_⟩
      rw [total', total, List.map_cons, List.sum_cons, Nat.add_assoc]

/-! ### The total of a type -/

def numbersOf (files : List (Bytes × Nat)) (typeName : Bytes) : List Nat :=
  (files.filter fun f => f.1 = typeName).map Prod.snd

theorem toU64_atoi_stored (n : Nat) : toU64 (atoi (decimal n)) = readAsInt n := by
  rw [toU64_atoi (decimal_digits n), readMagnitude_decimal]

theorem numbersOf_concat (files : List (Bytes × Nat)) (file : Bytes × Nat) (typeName : Bytes) :
    numbersOf (files ++ [file]) typeName =
      if typeName = file.1 then numbersOf files typeName ++ [file.2] else numbersOf files typeName := by
  unfold numbersOf
  rw [List.filter_append, List.map_append, List.filter_singleton]
  by_cases same : typeName = file.1
  · simp [same]
  · simp [same, Ne.symm same]

theorem numbersOf_absent {files : List (Bytes × Nat)} {typeName : Bytes} (absent : typeName ∉ files.map Prod.fst) :
    numbersOf files typeName = [] := by
  unfold numbersOf
  rw [List.map_eq_nil_iff, List.filter_eq_nil_iff]
  intro f member same
  exact absent (List.mem_map.mpr ⟨f, member, of_decide_eq_true same⟩)

theorem get_insertTypeDB {files : List (Bytes × Nat)} (small : ∀ f ∈ files, f.2 < 2 ^ 64) (typeName : Bytes) :
    (files.foldl (fun tDb f => insertTypeDB tDb f.1 f.2) .empty).get typeName =
      if typeName ∈ files.map Prod.fst then some (decimal (typeTotal (numbersOf files typeName))) else none := by
  induction files using List.reverseRecOn generalizing typeName with
  | nil => rfl
  | append_singleton files file ih =>
    have before := ih (fun f member => small f (List.mem_append_left _ member))
    have number := small file (List.mem_append_right _ List.mem_cons_self)
    rw [List.foldl_append, List.foldl_cons, List.foldl_nil]
    generalize files.foldl (fun tDb f => insertTypeDB tDb f.1 f.2) .empty = tDb at before ⊢
    have stored : insertTypeDB tDb file.1 file.2 =
        tDb.put file.1 (decimal (typeTotal (numbersOf files file.1 ++ [file.2]))) := by
      unfold insertTypeDB
      rw [before file.1, typeTotal_concat]
      by_cases known : file.1 ∈ files.map Prod.fst
      · rw [if_pos known]
        dsimp only
        rw [toU64_atoi_stored]
      · have first : (readAsInt (typeTotal []) + file.2) % 2 ^ 64 = file.2 := by
          have zero : readAsInt (typeTotal []) = 0 := by decide
          rw [zero, Nat.zero_add, Nat.mod_eq_of_lt number]
        rw [if_neg known, numbersOf_absent known, first]
    rw [stored, OrderedMap.get_put, numbersOf_concat, before typeName]
    by_cases same : typeName = file.1
    · subst same
      simp
    · have listed : typeName ∈ (files ++ [file]).map Prod.fst ↔ typeName ∈ files.map Prod.fst := by
        rw [List.map_append, List.mem_append, List.map_singleton, List.mem_singleton, or_iff_left same]
      rw [if_neg same, if_neg same]
      by_cases known : typeName ∈ files.map Prod.fst
      · rw [if_pos known, if_pos (listed.mpr known)]
      · rw [if_neg known, if_neg (mt listed.mp known)]

theorem sum_numbersOf (files : List (Bytes × Nat)) :
    ((files.map Prod.fst).dedup.map fun t => (numbersOf files t).sum).sum = (files.map Prod.snd).sum := by
  have labelled : ∀ e ∈ files.map Prod.swap, e.2 ∈ (files.map Prod.fst).dedup := by
    intro e member
    obtain ⟨f, inside, rfl⟩ := List.mem_map.mp member
    exact List.mem_dedup.mpr (List.mem_map_of_mem inside)
  have groups := ((flatMap_filter_perm (List.nodup_dedup _) labelled).map Prod.fst).sum_eq
  have own : ∀ t, ((files.map Prod.swap).filter fun e => e.2 = t).map Prod.fst = numbersOf files t := by
    intro t
    rw [numbersOf, List.filter_map, List.map_map]
    rfl
  rw [List.map_flatMap, List.map_map] at groups
  simp only [own] at groups
  rw [List.flatMap_def, List.sum_flatten, List.map_map] at groups
  exact groups

def typeTotals (tDb : OrderedMap Bytes Bytes) : Nat := (tDb.entries.map fun e => readMagnitude 10 e.2).sum

theorem typeTotals_eq {files : List (Bytes × Nat)} (small : ∀ f ∈ files, f.2 < 2 ^ 64) :
    typeTotals (files.foldl (fun tDb f => insertTypeDB tDb f.1 f.2) .empty) =
      ((files.map Prod.fst).dedup.map fun t => typeTotal (numbersOf files t)).sum := by
  have stored : ∀ t v, (files.foldl (fun tDb f => insertTypeDB tDb f.1 f.2) .empty).get t = some v ↔
      t ∈ (files.map Prod.fst).dedup ∧ decimal (typeTotal (numbersOf files t)) = v := by
    intro t v
    rw [get_insertTypeDB small, List.mem_dedup]
    by_cases known : t ∈ files.map Prod.fst
    · rw [if_pos known, Option.some_inj, and_iff_right known]
    · rw [if_neg known]
      exact iff_of_false (fun none => nomatch none) fun both => known both.1
  have entries := OrderedMap.entries_perm (List.nodup_dedup _) stored
  rw [typeTotals, (entries.map _).sum_eq, List.map_map]
  congr 1
  apply List.map_congr_left
  intro t _
  exact readMagnitude_decimal _

/-- No total is read back past an `int`. -/
def TotalsFit (files : List (Bytes × Nat)) : Prop :=
  ∀ t ∈ files.map Prod.fst, (numbersOf files t).dropLast.sum < 2 ^ 31

instance instDecidableTotalsFit (files : List (Bytes × Nat)) : Decidable (TotalsFit files) :=
  inferInstanceAs (Decidable (∀ t ∈ files.map Prod.fst, (numbersOf files t).dropLast.sum < 2 ^ 31))

theorem sum_right_iff {α : Type} {ts : List α} {found right : α → Nat} {Fits : α → Prop}
    (few : (ts.map right).sum < 2 ^ 63)
    (cases : ∀ t ∈ ts, (Fits t ∧ found t = right t) ∨ (¬ Fits t ∧ (found t < right t ∨ 2 ^ 63 ≤ found t))) :
    (ts.map found).sum = (ts.map right).sum ↔ ∀ t ∈ ts, Fits t := by
  constructor
  · intro same
    have small : ∀ t ∈ ts, found t ≤ right t := by
      intro t member
      have part : found t ≤ (ts.map found).sum := List.le_sum_of_mem (List.mem_map_of_mem member)
      rcases cases t member with ⟨-, equal⟩ | ⟨-, less | huge⟩ <;> omega
    intro t member
    rcases cases t member with ⟨fits, -⟩ | ⟨-, wrong⟩
    · exact fits
    · have part : found t ≤ (ts.map found).sum := List.le_sum_of_mem (List.mem_map_of_mem member)
      have strictly : (ts.map found).sum < (ts.map right).sum :=
        List.sum_lt_sum _ _ small ⟨t, member, by omega⟩
      omega
  · intro fits
    congr 1
    apply List.map_congr_left
    intro t member
    rcases cases t member with ⟨-, equal⟩ | ⟨unfit, -⟩
    · exact equal
    · exact absurd (fits t member) unfit

theorem typeTotals_iff {files : List (Bytes × Nat)} (few : (files.map Prod.snd).sum < 2 ^ 63) :
    typeTotals (files.foldl (fun tDb f => insertTypeDB tDb f.1 f.2) .empty) = (files.map Prod.snd).sum ↔
      TotalsFit files := by
  have small : ∀ f ∈ files, f.2 < 2 ^ 64 := by
    intro f member
    have part : f.2 ≤ (files.map Prod.snd).sum := List.le_sum_of_mem (List.mem_map_of_mem member)
    omega
  have types := sum_numbersOf files
  have each : ∀ t ∈ (files.map Prod.fst).dedup,
      ((numbersOf files t).dropLast.sum < 2 ^ 31 ∧ typeTotal (numbersOf files t) = (numbersOf files t).sum) ∨
      (¬ (numbersOf files t).dropLast.sum < 2 ^ 31 ∧
        (typeTotal (numbersOf files t) < (numbersOf files t).sum ∨ 2 ^ 63 ≤ typeTotal (numbersOf files t))) := by
    intro t member
    have part : (numbersOf files t).sum ≤ ((files.map Prod.fst).dedup.map fun t => (numbersOf files t).sum).sum :=
      List.le_sum_of_mem (List.mem_map_of_mem (f := fun t => (numbersOf files t).sum) member)
    rw [Nat.not_lt]
    exact typeTotal_cases _ (by omega)
  rw [typeTotals_eq small, ← types, sum_right_iff (types.trans_lt few) each]
  simp only [List.mem_dedup]
  rfl

theorem sum_readAsInt_iff {files : List (Bytes × Nat)} (few : (files.map Prod.snd).sum < 2 ^ 63) :
    (files.map fun f => readAsInt f.2).sum = (files.map Prod.snd).sum ↔ ∀ f ∈ files, f.2 < 2 ^ 31 := by
  apply sum_right_iff few
  intro f member
  have part : f.2 ≤ (files.map Prod.snd).sum := List.le_sum_of_mem (List.mem_map_of_mem member)
  have equal := @readAsInt_eq_iff f.2 (by omega)
  by_cases small : f.2 < 2 ^ 31
  · exact .inl ⟨small, equal.mpr small⟩
  · have other := mt equal.mp small
    rcases readAsInt_le_or f.2 with low | huge
    · exact .inr ⟨small, .inl (by omega)⟩
    · exact .inr ⟨small, .inr huge⟩

/-! ### The counts of a fingerprint -/

def typedCount (fcDb : OrderedMap Bytes Bytes) (x : Fp) : Nat :=
  ((fcDb.entries.filter fun e => e.1.take fpSize = x.bytes).map fun e => readMagnitude 10 e.2).sum

def untypedCount (fcDb : OrderedMap Fp Bytes) (x : Fp) : Nat := ((fcDb.get x).map (readMagnitude 10)).getD 0

def typeHashes (md5 : Bytes → Fp) (files : List (Bytes × Nat)) : List Fp := (files.map fun f => md5 f.1).dedup

def countsOf (md5 : Bytes → Fp) (files : List (Bytes × Nat)) (lines : List Bytes) (x : Fp) : List Nat :=
  (typeHashes md5 files).map fun T => timesSeen (chunksUnder md5 files lines) (x, T)

theorem hash_listed {md5 : Bytes → Fp} {files : List (Bytes × Nat)} {lines : List Bytes} {e : (Fp × Fp) × Bytes}
    (member : e ∈ chunksUnder md5 files lines) : e.1.2 ∈ typeHashes md5 files := by
  obtain ⟨l, inside, made⟩ := List.mem_filterMap.mp member
  obtain ⟨chunk, -, rfl⟩ := Option.map_eq_some_iff.mp made
  obtain ⟨f, listed, named⟩ := List.mem_flatMap.mp (List.of_mem_zip inside).1
  have same := List.eq_of_mem_replicate named
  exact List.mem_dedup.mpr (List.mem_map.mpr ⟨f, listed, by rw [← same]⟩)

theorem untypedCount_eq {seen : List Fp} {s : ReadChunks.State} (counted : Counted seen s) (x : Fp) :
    untypedCount s.fcDb x = counter (seen.count x) := by
  unfold untypedCount
  rw [counted.counts x]
  by_cases known : x ∈ seen
  · rw [if_pos known]
    exact readMagnitude_decimal _
  · rw [if_neg known, List.count_eq_zero.mpr known]
    rfl

theorem entries_under {md5 : Bytes → Fp} {files : List (Bytes × Nat)} {lines : List Bytes} {s : State}
    (kept : Represents (chunksUnder md5 files lines) s) (paired : Paired s.fcDb) (x : Fp) :
    (s.fcDb.entries.filter fun e => e.1.take fpSize = x.bytes).Perm
      (((typeHashes md5 files).filter fun T => (x, T) ∈ (chunksUnder md5 files lines).map Prod.fst).map fun T =>
        (x.bytes ++ T.bytes, decimal (counter (timesSeen (chunksUnder md5 files lines) (x, T))))) := by
  apply (List.perm_ext_iff_of_nodup ?_ ?_).mpr
  · rintro ⟨k, v⟩
    simp only [List.mem_filter, List.mem_map, decide_eq_true_eq]
    rw [← OrderedMap.get_eq_some]
    constructor
    · rintro ⟨found, under⟩
      obtain ⟨y, T, rfl⟩ := paired k (OrderedMap.mem_keys.mpr ⟨v, found⟩)
      rw [List.take_left' y.size_eq] at under
      obtain rfl := Fp.ext under
      rw [kept.counts y T] at found
      split at found
      · rename_i known
        obtain ⟨e, member, same⟩ := List.mem_map.mp known
        have listed := hash_listed member
        rw [same] at listed
        exact ⟨T, ⟨listed, e, member, same⟩, by rw [Option.some.inj found]⟩
      · cases found
    · rintro ⟨T, ⟨-, e, member, same⟩, made⟩
      cases made
      have known : (x, T) ∈ (chunksUnder md5 files lines).map Prod.fst := List.mem_map.mpr ⟨e, member, same⟩
      rw [kept.counts x T, if_pos known]
      exact ⟨rfl, List.take_left' x.size_eq⟩
  · exact (List.Nodup.of_map _ s.fcDb.keys_nodup).filter _
  · refine List.Nodup.map_on ?_ ((List.nodup_dedup _).filter _)
    intro T _ T' _ same
    exact (key_inj.mp (Prod.mk.inj same).1).2

theorem typedCount_eq {md5 : Bytes → Fp} {files : List (Bytes × Nat)} {lines : List Bytes} {s : State}
    (kept : Represents (chunksUnder md5 files lines) s) (paired : Paired s.fcDb) (x : Fp) :
    typedCount s.fcDb x = ((countsOf md5 files lines x).map counter).sum := by
  rw [typedCount, ((entries_under kept paired x).map _).sum_eq, List.map_map, countsOf, List.map_map]
  rw [← sum_filter_of_zero (p := fun T => (x, T) ∈ (chunksUnder md5 files lines).map Prod.fst)
    (f := counter ∘ fun T => timesSeen (chunksUnder md5 files lines) (x, T))]
  · congr 1
    apply List.map_congr_left
    intro T _
    exact readMagnitude_decimal _
  · intro T unseen
    rw [Function.comp_apply, timesSeen_eq_zero.mpr unseen]
    rfl

theorem typed_fingerprints {typeHash : Fp} {lines : List Bytes} (sized : Sized lines) :
    (typed typeHash lines).map (fun e => e.1.1) = chunksOf lines := by
  induction lines with
  | nil => rfl
  | cons line lines ih =>
    obtain ⟨here, later⟩ := List.forall_mem_cons.mp sized
    obtain ⟨item, found⟩ := Option.isSome_iff_exists.mp here
    have under : chunkUnder typeHash line =
        some (((readChunk line).1, typeHash), decimal (bucketSize (toU64 (atoi item)))) := by
      rw [chunkUnder, chunkOf, found]
      rfl
    rw [typed, List.filterMap_cons_some under, List.map_cons, ← typed, ih later]
    rfl

theorem chunksUnder_fingerprints (md5 : Bytes → Fp) {files : List (Bytes × Nat)} {lines : List Bytes}
    (sized : Sized lines) (all : (files.map Prod.snd).sum = lines.length) :
    (chunksUnder md5 files lines).map (fun e => e.1.1) = chunksOf lines := by
  induction files generalizing lines with
  | nil =>
    obtain rfl := List.eq_nil_of_length_eq_zero all.symm
    rfl
  | cons file files ih =>
    rw [List.map_cons, List.sum_cons] at all
    have rest : Sized (lines.drop file.2) := fun line member => sized line (List.mem_of_mem_drop member)
    have later := ih rest (by rw [List.length_drop]; omega)
    rw [chunksUnder_cons md5 file files (by omega), List.map_append, later]
    have own : (typed (md5 file.1) (lines.take file.2)).map (fun e => e.1.1) = chunksOf (lines.take file.2) :=
      typed_fingerprints fun line member => sized line (List.mem_of_mem_take member)
    rw [own, chunksOf, chunksOf, ← List.map_append, List.take_append_drop, chunksOf]

theorem timesSeen_pair (seen : List ((Fp × Fp) × Bytes)) (x T : Fp) :
    timesSeen seen (x, T) = (((seen.map Prod.fst).filter fun k => k.2 = T).map Prod.fst).count x := by
  induction seen using List.reverseRecOn with
  | nil => rfl
  | append_singleton seen e ih =>
    obtain ⟨⟨y, T'⟩, size⟩ := e
    rw [timesSeen_concat, ih, List.map_append, List.filter_append, List.map_append, List.count_append]
    congr 1
    rw [List.map_singleton, List.filter_singleton]
    by_cases type : T' = T
    · by_cases same : y = x
      · simp [type, same]
      · simp [type, same]
    · simp [type]

theorem sum_countsOf (md5 : Bytes → Fp) {files : List (Bytes × Nat)} {lines : List Bytes} (sized : Sized lines)
    (all : (files.map Prod.snd).sum = lines.length) (x : Fp) :
    (countsOf md5 files lines x).sum = (chunksOf lines).count x := by
  have chunks := chunksUnder_fingerprints md5 sized all
  have labelled : ∀ e ∈ (chunksUnder md5 files lines).map Prod.fst, e.2 ∈ typeHashes md5 files := by
    intro e member
    obtain ⟨c, inside, rfl⟩ := List.mem_map.mp member
    exact hash_listed inside
  have groups := flatMap_filter_perm (List.nodup_dedup _) labelled
  have counts := (groups.map Prod.fst).count_eq x
  rw [List.map_map, List.map_flatMap, List.count_flatMap] at counts
  rw [← chunks]
  refine Eq.trans ?_ counts
  rw [countsOf]
  congr 1
  apply List.map_congr_left
  intro T _
  exact timesSeen_pair _ x T

/-! ### Agreement -/

structure Agree (s : State) (s' : ReadChunks.State) : Prop where
  counts : ∀ x, typedCount s.fcDb x = untypedCount s'.fcDb x
  typed : typeTotals s.tDb = s.totalLogicChunkNumber
  untyped : typeTotals s.tDb = s'.totalLogicChunkNumber

variable {md5 : Bytes → Fp} {fp typeFp : Bytes} {files : List (Bytes × Nat)}

theorem length_chunkLines_lt (fpSize : fp.length < 2 ^ 63) : (ReadChunks.chunkLines fp).length < 2 ^ 63 := by
  have lines := length_bufferLines_le 256 fp
  rw [ReadChunks.chunkLines, List.length_drop]
  omega

/-- Both runs finish, with what the trace and the list say. -/
theorem runs_of_small (md5 : Bytes → Fp) (lists : Lists (bufferLines 256 typeFp) files)
    (all : (files.map Prod.snd).sum = (ReadChunks.chunkLines fp).length)
    (fit : ∀ line ∈ typeLines (bufferLines 256 typeFp), line.length < 50) (sized : Sized (ReadChunks.chunkLines fp))
    (small : ∀ f ∈ files, f.2 < 2 ^ 31) :
    ∃ s s', readInChunks md5 fp typeFp = .ok s ∧ ReadChunks.readInChunks .init fp = .ok s' ∧
      Represents (chunksUnder md5 files (ReadChunks.chunkLines fp)) s ∧ Paired s.fcDb ∧
      s.tDb = files.foldl (fun tDb f => insertTypeDB tDb f.1 f.2) .empty ∧
      s.totalLogicChunkNumber = (files.map Prod.snd).sum ∧ Counted (chunksOf (ReadChunks.chunkLines fp)) s' := by
  have read : (files.map fun f => (f.1, readAsInt f.2)) = files := by
    conv_rhs => rw [← List.map_id files]
    apply List.map_congr_left
    intro f member
    have number := small f member
    rw [(readAsInt_eq_iff (by omega)).mpr number, id]
  have lines : (State.start fp).reader.lines = ReadChunks.chunkLines fp := List.drop_one.symm
  obtain ⟨s, finished, kept, tDb, total⟩ := foldlM_sized md5 files (represents_start fp)
    (by rwa [lines]) (by rw [lines, all])
  obtain ⟨s', finished', counted⟩ := foldlM_counted sized counted_init
  have paired := (foldlM_finished files (fun _ member => absurd member List.not_mem_nil) finished).1
  rw [lines, List.nil_append] at kept
  refine ⟨s, s', ?_, finished', kept, paired, tDb, ?_, by rwa [List.nil_append] at counted⟩
  · rw [readInChunks, lists.readFiles fit, read]
    exact finished
  · rw [total]
    exact Nat.zero_add _

theorem agree_iff_of_runs {s : State} {s' : ReadChunks.State}
    (all : (files.map Prod.snd).sum = (ReadChunks.chunkLines fp).length) (fpSize : fp.length < 2 ^ 63)
    (sized : Sized (ReadChunks.chunkLines fp)) (kept : Represents (chunksUnder md5 files (ReadChunks.chunkLines fp)) s)
    (paired : Paired s.fcDb) (tDb : s.tDb = files.foldl (fun tDb f => insertTypeDB tDb f.1 f.2) .empty)
    (total : s.totalLogicChunkNumber = (files.map Prod.snd).sum)
    (counted : Counted (chunksOf (ReadChunks.chunkLines fp)) s') :
    Agree s s' ↔ TotalsFit files ∧ ∀ x, CountsFit (countsOf md5 files (ReadChunks.chunkLines fp) x) := by
  have room := length_chunkLines_lt fpSize
  have length : (chunksOf (ReadChunks.chunkLines fp)).length = (ReadChunks.chunkLines fp).length := List.length_map _
  have totals := @typeTotals_iff files (by omega)
  rw [← tDb] at totals
  have counts : ∀ x, typedCount s.fcDb x = untypedCount s'.fcDb x ↔
      CountsFit (countsOf md5 files (ReadChunks.chunkLines fp) x) := by
    intro x
    have whole := sum_countsOf md5 sized all x
    have most := List.count_le_length (a := x) (l := chunksOf (ReadChunks.chunkLines fp))
    rw [typedCount_eq kept paired, untypedCount_eq counted, ← whole]
    exact sum_counter_iff (by omega)
  constructor
  · intro agree
    exact ⟨totals.mp (agree.typed.trans total), fun x => (counts x).mp (agree.counts x)⟩
  · rintro ⟨right, few⟩
    have sum := totals.mpr right
    exact ⟨fun x => (counts x).mpr (few x), sum.trans total.symm, by rw [sum, all, counted.total, length]⟩

theorem small_of_agree (lists : Lists (bufferLines 256 typeFp) files)
    (all : (files.map Prod.snd).sum = (ReadChunks.chunkLines fp).length) (fpSize : fp.length < 2 ^ 63) {s : State}
    {s' : ReadChunks.State} (finished : readInChunks md5 fp typeFp = .ok s)
    (finished' : ReadChunks.readInChunks .init fp = .ok s') (agree : Agree s s') :
    (∀ line ∈ typeLines (bufferLines 256 typeFp), line.length < 50) ∧ Sized (ReadChunks.chunkLines fp) ∧
      ∀ f ∈ files, f.2 < 2 ^ 31 := by
  have fit := lists.fit finished
  have sized := sized_of_finished finished'
  refine ⟨fit, sized, ?_⟩
  have room := length_chunkLines_lt fpSize
  rw [readInChunks, lists.readFiles fit] at finished
  have total := (foldlM_finished _ (fun _ member => absurd member List.not_mem_nil) finished).2
  rw [List.map_map] at total
  obtain ⟨s₁, finished₁, counted⟩ := foldlM_counted sized counted_init
  obtain rfl := Except.ok.inj (finished₁.symm.trans finished')
  have lines := counted.total
  rw [List.nil_append, chunksOf, List.length_map, ← all, ← agree.untyped, agree.typed, total] at lines
  exact (sum_readAsInt_iff (by omega)).mp ((Nat.zero_add _).symm.trans lines)

/-- The two programs count the same where no type, no number and no count is past its buffer or its `int`. -/
theorem agree_iff (lists : Lists (bufferLines 256 typeFp) files)
    (all : (files.map Prod.snd).sum = (ReadChunks.chunkLines fp).length) (fpSize : fp.length < 2 ^ 63) :
    (∃ s s', readInChunks md5 fp typeFp = .ok s ∧ ReadChunks.readInChunks .init fp = .ok s' ∧ Agree s s') ↔
      ((∀ line ∈ typeLines (bufferLines 256 typeFp), line.length < 50) ∧ Sized (ReadChunks.chunkLines fp) ∧
        ∀ f ∈ files, f.2 < 2 ^ 31) ∧
      TotalsFit files ∧ ∀ x, CountsFit (countsOf md5 files (ReadChunks.chunkLines fp) x) := by
  constructor
  · rintro ⟨s, s', finished, finished', agree⟩
    have within := small_of_agree lists all fpSize finished finished' agree
    refine ⟨within, ?_⟩
    obtain ⟨fit, sized, small⟩ := within
    obtain ⟨s₁, s₁', ran, ran', kept, paired, tDb, total, counted⟩ := runs_of_small md5 lists all fit sized small
    obtain rfl := Except.ok.inj (ran.symm.trans finished)
    obtain rfl := Except.ok.inj (ran'.symm.trans finished')
    exact (agree_iff_of_runs all fpSize sized kept paired tDb total counted).mp agree
  · rintro ⟨⟨fit, sized, small⟩, right⟩
    obtain ⟨s, s', ran, ran', kept, paired, tDb, total, counted⟩ := runs_of_small md5 lists all fit sized small
    exact ⟨s, s', ran, ran', (agree_iff_of_runs all fpSize sized kept paired tDb total counted).mpr right⟩

open ReadChunksFile (lists_shared longType lists_longType)

theorem agree_iff_shared :
    (∃ s s', readInChunks typeDigest sharedTrace sharedTypes = .ok s ∧
      ReadChunks.readInChunks .init sharedTrace = .ok s' ∧ Agree s s') ↔
      ((∀ line ∈ typeLines (bufferLines 256 sharedTypes), line.length < 50) ∧ Sized (ReadChunks.chunkLines sharedTrace) ∧
        ∀ f ∈ [(chars ['t', 'x', 't'], 2), (chars ['p', 'd', 'f'], 1)], f.2 < 2 ^ 31) ∧
      TotalsFit [(chars ['t', 'x', 't'], 2), (chars ['p', 'd', 'f'], 1)] ∧
      ∀ x, CountsFit (countsOf typeDigest [(chars ['t', 'x', 't'], 2), (chars ['p', 'd', 'f'], 1)]
        (ReadChunks.chunkLines sharedTrace) x) :=
  agree_iff lists_shared (by decide +kernel) (by decide +kernel)

def oneChunk : Bytes := ReadChunks.traceFile [("1:0:0:0:0:0", "8")]

/-- The type of the only chunk does not fit `typeBuffer`. -/
theorem agree_longType : Lists (bufferLines 256 longType) [(List.replicate 50 97, 1)] ∧
    1 = (ReadChunks.chunkLines oneChunk).length ∧
    ¬ ∃ s s', readInChunks typeDigest oneChunk longType = .ok s ∧ ReadChunks.readInChunks .init oneChunk = .ok s' ∧
      Agree s s' := by
  refine ⟨lists_longType, by decide +kernel, ?_⟩
  rintro ⟨s, s', finished, -⟩
  have short := lists_longType.fit finished
  revert short
  decide +kernel

end EncryptedDedup.ReadTypes
