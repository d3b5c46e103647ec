import EncryptedDedup.Bucket.EncryptRun
import EncryptedDedup.SingleStream.NeighbourTables

/-!
# `duplicate`

Counts the chunks of a trace and prints the lines of those that occur more than once. What it prints is a trace
again: the line with the numbers counts as a title.
-/

namespace EncryptedDedup.Duplicate
open EncryptFSL
open LocalityCount (isTitle countFrequency countFrequency_get)

/-! ### The program -/

structure Counts where
  db : OrderedMap Fp Bytes
  total : Nat

def countLine (s : Counts) (line : Bytes) : Counts :=
  if isTitle line then s else ⟨countFrequency s.db (readChunk line).1, (s.total + 1) % 2 ^ 64⟩

def readHashes (s : Counts) (fp : Bytes) : Counts := (bufferLines 256 fp).foldl countLine s

/-- `atoi` of a null pointer, and the exit with `non-count chunk`. -/
inductive Stop where
  | noSize
  | nonCountChunk

structure Printed where
  text : Bytes
  duplicate : Nat

/-- `%02x:%02x:%02x:%02x:%02x:%02x\t%llu\t10\n`. -/
def printChunk (hash : Fp) (size : Nat) : Bytes := chunkText hash (decimal size) ++ [10]

def removeLine (db : OrderedMap Fp Bytes) (s : Printed) (line : Bytes) : Except Stop Printed :=
  if isTitle line then .ok s
  else
    match (readChunk line).2 with
    | none => .error .noSize
    | some item =>
      match db.get (readChunk line).1 with
      | none => .error .nonCountChunk
      | some value =>
        if 1 < ofLE (value.take 8) then
          .ok ⟨s.text ++ printChunk (readChunk line).1 (toU64 (atoi item)), (s.duplicate + 1) % 2 ^ 64⟩
        else .ok s

def removeUnique (db : OrderedMap Fp Bytes) (fp : Bytes) : Except Stop Printed :=
  (bufferLines 256 fp).foldlM (removeLine db) ⟨[], 0⟩

def summary (duplicate total : Nat) : Bytes :=
  chars "[REMOVE UNIQUE] number of duplicate chunks: ".toList ++ decimal duplicate ++ 47 :: decimal total

structure Result where
  out : Bytes
  duplicate : Nat
  total : Nat

def main (fp : Bytes) : Except Stop Result := do
  let counts := readHashes ⟨.empty, 0⟩ fp
  let printed ← removeUnique counts.db fp
  .ok ⟨printed.text ++ (summary printed.duplicate counts.total ++ [10]), printed.duplicate, counts.total⟩

/-! ### Traces -/

def chunkLines (fp : Bytes) : List Bytes := (bufferLines 256 fp).filter fun line => !isTitle line

/-- The fingerprint of a line and the number that stands for its size. -/
def chunkOf (line : Bytes) : Option (Fp × Nat) :=
  (readChunk line).2.map fun item => ((readChunk line).1, readMagnitude 10 item)

def chunks (fp : Bytes) : List (Fp × Nat) := (chunkLines fp).filterMap chunkOf

/-- Every line that is no title has a size, which is a decimal number. -/
def IsTrace (fp : Bytes) : Prop :=
  ∀ line ∈ chunkLines fp, ∃ item, (readChunk line).2 = some item ∧ ∀ c ∈ item, 48 ≤ c ∧ c ≤ 57

def repeated (cs : List (Fp × Nat)) : List (Fp × Nat) := cs.filter fun c => 2 ≤ (cs.map Prod.fst).count c.1

/-- What is printed: the repeated chunks as they were, and a trace that is printed again line by line. -/
def Filters (fp : Bytes) : Prop :=
  ∃ r, main fp = .ok r ∧ chunks r.out = repeated (chunks fp) ∧
    ∃ r', main r.out = .ok r' ∧ chunkLines r'.out = chunkLines r.out ∧ r'.duplicate = r'.total

/-! ### Repeated chunks -/

theorem map_repeated (cs : List (Fp × Nat)) :
    (repeated cs).map Prod.fst = (cs.map Prod.fst).filter fun x => 2 ≤ (cs.map Prod.fst).count x := by
  unfold repeated
  rw [List.filter_map]
  rfl

theorem repeated_of_fst {cs ks : List (Fp × Nat)} (same : ks.map Prod.fst = (repeated cs).map Prod.fst) :
    repeated ks = ks := by
  unfold repeated
  rw [List.filter_eq_self]
  intro c member
  have listed : c.1 ∈ ks.map Prod.fst := List.mem_map_of_mem member
  rw [same, map_repeated] at listed
  have often := (List.mem_filter.mp listed).2
  rw [same, map_repeated, List.count_filter (p := fun x => decide (2 ≤ (cs.map Prod.fst).count x)) often]
  exact often

/-! ### Counting -/

structure CountsOf (seen : List Fp) (s : Counts) : Prop where
  frequency : ∀ x, s.db.get x = if seen.count x = 0 then none else some (u64 (seen.count x))
  total : s.total = seen.length % 2 ^ 64

theorem foldl_countLine (lines : List Bytes) {s : Counts} {seen : List Fp} (counted : CountsOf seen s) :
    CountsOf (seen ++ LocalityCount.chunksOf lines) (lines.foldl countLine s) := by
  induction lines generalizing s seen with
  | nil =>
    have none : LocalityCount.chunksOf [] = [] := rfl
    rwa [none, List.append_nil]
  | cons line lines ih =>
    rw [List.foldl_cons]
    cases title : isTitle line with
    | true =>
      have skipped : LocalityCount.chunksOf (line :: lines) = LocalityCount.chunksOf lines := by
        unfold LocalityCount.chunksOf
        rw [List.filter_cons_of_neg (by simp [title])]
      have same : countLine s line = s := if_pos title
      rw [skipped, same]
      exact ih counted
    | false =>
      have read : LocalityCount.chunksOf (line :: lines) = (readChunk line).1 :: LocalityCount.chunksOf lines := by
        unfold LocalityCount.chunksOf
        rw [List.filter_cons_of_pos (by simp [title]), List.map_cons]
      rw [read, List.append_cons]
      apply ih
      have step : countLine s line = ⟨countFrequency s.db (readChunk line).1, (s.total + 1) % 2 ^ 64⟩ :=
        if_neg (by simp [title])
      rw [step]
      refine ⟨countFrequency_get counted.frequency (readChunk line).1, ?_⟩
      rw [List.length_append, List.length_singleton, counted.total, Nat.mod_add_mod]

theorem chunks_fst {fp : Bytes} (trace : IsTrace fp) :
    (chunks fp).map Prod.fst = LocalityCount.chunksOf (bufferLines 256 fp) := by
  have each : ∀ lines : List Bytes, (∀ line ∈ lines, ∃ item, (readChunk line).2 = some item ∧ ∀ c ∈ item, 48 ≤ c ∧ c ≤ 57) →
      (lines.filterMap chunkOf).map Prod.fst = lines.map fun line => (readChunk line).1 := by
    intro lines
    induction lines with
    | nil => exact fun _ => rfl
    | cons line lines ih =>
      intro sized
      obtain ⟨here, later⟩ := List.forall_mem_cons.mp sized
      obtain ⟨item, read, -⟩ := here
      have first : chunkOf line = some ((readChunk line).1, readMagnitude 10 item) := by
        unfold chunkOf
        rw [read, Option.map_some]
      rw [List.filterMap_cons_some first, List.map_cons, List.map_cons, ih later]
  exact each (chunkLines fp) trace

/-! ### Printing -/

def printed (cs : List (Fp × Nat)) : Bytes := (cs.map fun c => printChunk c.1 (readAsInt c.2)).flatten

theorem printed_cons (c : Fp × Nat) (cs : List (Fp × Nat)) :
    printed (c :: cs) = printChunk c.1 (readAsInt c.2) ++ printed cs := rfl

theorem ofLE_count {n : Nat} (small : n < 2 ^ 64) : ofLE ((u64 n).take 8) = n := by
  rw [List.take_of_length_le (by rw [length_u64]), ofLE_u64, Nat.mod_eq_of_lt small]

theorem removeLine_chunk {db : OrderedMap Fp Bytes} {line item : Bytes} {n : Nat} (plain : isTitle line = false)
    (read : (readChunk line).2 = some item) (stored : db.get (readChunk line).1 = some (u64 n)) (small : n < 2 ^ 64)
    (s : Printed) : removeLine db s line = .ok (if 2 ≤ n then
      ⟨s.text ++ printChunk (readChunk line).1 (toU64 (atoi item)), (s.duplicate + 1) % 2 ^ 64⟩ else s) := by
  unfold removeLine
  rw [if_neg (by simp [plain]), read]
  dsimp only
  rw [stored]
  dsimp only
  rw [ofLE_count small]
  by_cases twice : 2 ≤ n
  · rw [if_pos twice, if_pos (Nat.lt_of_succ_le twice)]
  · rw [if_neg twice, if_neg (by omega)]

theorem foldlM_removeLine {db : OrderedMap Fp Bytes} {seen : List Fp}
    (frequency : ∀ x, db.get x = if seen.count x = 0 then none else some (u64 (seen.count x)))
    (few : seen.length < 2 ^ 64) (lines : List Bytes) {s : Printed} {n : Nat} (start : s.duplicate = n % 2 ^ 64)
    (sized : ∀ line ∈ lines.filter (fun line => !isTitle line), ∃ item, (readChunk line).2 = some item ∧
      ∀ c ∈ item, 48 ≤ c ∧ c ≤ 57)
    (known : ∀ x ∈ LocalityCount.chunksOf lines, x ∈ seen) :
    let kept := ((lines.filter fun line => !isTitle line).filterMap chunkOf).filter fun c => 2 ≤ seen.count c.1
    lines.foldlM (removeLine db) s = .ok ⟨s.text ++ printed kept, (n + kept.length) % 2 ^ 64⟩ := by
  induction lines generalizing s n with
  | nil =>
    dsimp only [List.filter_nil, List.filterMap_nil]
    rw [List.length_nil, Nat.add_zero, ← start]
    have none : printed [] = [] := rfl
    rw [none, List.append_nil]
    rfl
  | cons line lines ih =>
    dsimp only
    rw [List.foldlM_cons]
    cases title : isTitle line with
    | true =>
      have same : removeLine db s line = .ok s := if_pos title
      have skipped : (line :: lines).filter (fun line => !isTitle line) = lines.filter fun line => !isTitle line :=
        List.filter_cons_of_neg (by simp [title])
      have fewer : LocalityCount.chunksOf (line :: lines) = LocalityCount.chunksOf lines := by
        unfold LocalityCount.chunksOf
        rw [skipped]
      rw [skipped] at sized ⊢
      rw [fewer] at known
      rw [same]
      exact ih start sized known
    | false =>
      have shown : (line :: lines).filter (fun line => !isTitle line) =
          line :: lines.filter fun line => !isTitle line := List.filter_cons_of_pos (by simp [title])
      have more : LocalityCount.chunksOf (line :: lines) = (readChunk line).1 :: LocalityCount.chunksOf lines := by
        unfold LocalityCount.chunksOf
        rw [shown, List.map_cons]
      rw [shown] at sized ⊢
      rw [more] at known
      obtain ⟨here, sized⟩ := List.forall_mem_cons.mp sized
      obtain ⟨counted, known⟩ := List.forall_mem_cons.mp known
      obtain ⟨item, read, digits⟩ := here
      have chunk : chunkOf line = some ((readChunk line).1, readMagnitude 10 item) := by
        unfold chunkOf
        rw [read, Option.map_some]
      have present : seen.count (readChunk line).1 ≠ 0 := Nat.ne_of_gt (List.count_pos_iff.mpr counted)
      have stored : db.get (readChunk line).1 = some (u64 (seen.count (readChunk line).1)) := by
        rw [frequency, if_neg present]
      rw [List.filterMap_cons_some chunk,
        removeLine_chunk title read stored (List.count_le_length.trans_lt few) s]
      by_cases twice : 2 ≤ seen.count (readChunk line).1
      · rw [if_pos twice, List.filter_cons_of_pos (by simpa using twice), printed_cons, toU64_atoi digits]
        have next : (s.duplicate + 1) % 2 ^ 64 = (n + 1) % 2 ^ 64 := by rw [start, Nat.mod_add_mod]
        refine (ih next sized known).trans ?_
        rw [List.append_assoc, List.length_cons, Nat.add_assoc, Nat.add_comm 1]
      · rw [if_neg twice, List.filter_cons_of_neg (by simpa using twice)]
        exact ih start sized known

theorem main_trace {fp : Bytes} (trace : IsTrace fp) (few : (chunks fp).length < 2 ^ 64) :
    main fp = .ok ⟨printed (repeated (chunks fp)) ++ (summary (repeated (chunks fp)).length (chunks fp).length ++ [10]),
      (repeated (chunks fp)).length, (chunks fp).length⟩ := by
  have empty : CountsOf [] ⟨.empty, 0⟩ := ⟨fun x => rfl, rfl⟩
  have counted := foldl_countLine (bufferLines 256 fp) empty
  rw [List.nil_append, ← chunks_fst trace] at counted
  have short : ((chunks fp).map Prod.fst).length < 2 ^ 64 := by rwa [List.length_map]
  have ran := foldlM_removeLine counted.frequency short (bufferLines 256 fp) (s := ⟨[], 0⟩) (n := 0) rfl trace
    fun x member => by rwa [chunks_fst trace]
  have fewer : (repeated (chunks fp)).length < 2 ^ 64 := (List.length_filter_le _ _).trans_lt few
  unfold main removeUnique
  refine (congrArg (· >>= _) ran).trans ?_
  have total : (readHashes ⟨.empty, 0⟩ fp).total = (chunks fp).length := by
    refine counted.total.trans ?_
    rw [List.length_map, Nat.mod_eq_of_lt few]
  have duplicate : (0 + (repeated (chunks fp)).length) % 2 ^ 64 = (repeated (chunks fp)).length := by
    rw [Nat.zero_add, Nat.mod_eq_of_lt fewer]
  change Except.ok _ = _
  congr 1
  change Result.mk (printed (repeated (chunks fp)) ++ (summary ((0 + (repeated (chunks fp)).length) % 2 ^ 64)
    (readHashes ⟨.empty, 0⟩ fp).total ++ [10])) ((0 + (repeated (chunks fp)).length) % 2 ^ 64)
    (readHashes ⟨.empty, 0⟩ fp).total = _
  rw [duplicate, total]

/-! ### Reading what was printed -/

theorem isTitle_of_plain {line : Bytes} (plain : ∀ c ∈ chars ['C', 'h', 'u', 'n', 'k'], c ∉ line) : isTitle line = false := by
  unfold isTitle strpbrk
  rw [List.any_eq_false]
  intro c member
  rw [List.contains_iff_mem]
  intro letter
  exact plain c letter ((List.takeWhile_sublist _).subset member)

theorem isTitle_append {front : Bytes} (visible : (0 : UInt8) ∉ front) (title : isTitle front = true) (rest : Bytes) :
    isTitle (front ++ rest) = true := by
  unfold isTitle strpbrk at title ⊢
  rw [cstr_of_not_mem visible] at title
  obtain ⟨c, member, letter⟩ := List.any_eq_true.mp title
  refine List.any_eq_true.mpr ⟨c, ?_, letter⟩
  have kept : cstr (front ++ rest) = front ++ cstr rest := by
    apply List.takeWhile_append_of_pos
    intro x inside
    rw [bne_iff_ne]
    rintro rfl
    exact visible inside
  rw [kept]
  exact List.mem_append_left _ member

theorem not_mem_formatByte {c : UInt8} (letter : c ∈ chars ['C', 'h', 'u', 'n', 'k']) (b : UInt8) : c ∉ formatByte b := by
  have all : ∀ n < 256, (formatByte (UInt8.ofNat n)).all
      (fun x => !(chars ['C', 'h', 'u', 'n', 'k']).contains x) = true := by decide +kernel
  have byte := all b.toNat b.toNat_lt
  rw [UInt8.ofNat_toNat, List.all_eq_true] at byte
  intro inside
  have plain := byte c inside
  rw [Bool.not_eq_true', List.contains_eq_mem, decide_eq_false_iff_not] at plain
  exact plain letter

theorem not_mem_decimal {c : UInt8} (other : ¬ (48 ≤ c ∧ c ≤ 57)) (n : Nat) : c ∉ decimal n := fun inside =>
  other (decimal_digits n c inside)

theorem isTitle_printChunk (x : Fp) (n : Nat) : isTitle (printChunk x n) = false := by
  apply isTitle_of_plain
  intro c letter inside
  rcases List.mem_append.mp inside with text | newline
  · have other : ∀ c ∈ chars ['C', 'h', 'u', 'n', 'k'], ¬ (48 ≤ c ∧ c ≤ 57) ∧ c ∉ chars [':', '\t', '1', '0'] := by
      decide +kernel
    exact not_mem_chunkText (not_mem_formatByte letter) (not_mem_decimal (other c letter).1 n) (other c letter).2 text
  · have other : ∀ c ∈ chars ['C', 'h', 'u', 'n', 'k'], c ∉ [(10 : UInt8)] := by decide +kernel
    exact other c letter newline

theorem chunkOf_printChunk (x : Fp) (n : Nat) : chunkOf (printChunk x n) = some (x, n) := by
  unfold chunkOf printChunk
  rw [readChunk_chunkText x (isToken_decimal n).1 (isToken_decimal n).2, Option.map_some, readMagnitude_decimal]

theorem isTitle_summary (duplicate total : Nat) : isTitle (summary duplicate total ++ [10]) = true := by
  unfold summary
  rw [List.append_assoc, List.append_assoc]
  exact isTitle_append (by decide) (by decide) _

theorem bufferLines_output {cs : List (Fp × Nat)} {duplicate total : Nat} (smallD : duplicate < 2 ^ 64)
    (smallT : total < 2 ^ 64) :
    bufferLines 256 (printed cs ++ (summary duplicate total ++ [10])) =
      (cs.map fun c => printChunk c.1 (readAsInt c.2)) ++ [summary duplicate total ++ [10]] := by
  have lines : printed cs ++ (summary duplicate total ++ [10]) =
      (((cs.map fun c => chunkText c.1 (decimal (readAsInt c.2))) ++ [summary duplicate total]).map (· ++ [10])).flatten := by
    rw [List.map_append, List.flatten_append, List.map_map, List.map_singleton, List.flatten_singleton]
    rfl
  rw [lines, bufferLines_flatten]
  · rw [List.map_append, List.map_map]
    rfl
  · intro l member
    rcases List.mem_append.mp member with chunk | last
    · obtain ⟨c, -, rfl⟩ := List.mem_map.mp chunk
      have digits := length_decimal (k := 19) (n := readAsInt c.2) ((readAsInt_lt c.2).trans (by decide))
      rw [length_chunkText]
      omega
    · have digitsD := length_decimal (k := 19) (n := duplicate) (smallD.trans (by decide))
      have digitsT := length_decimal (k := 19) (n := total) (smallT.trans (by decide))
      have front : (chars "[REMOVE UNIQUE] number of duplicate chunks: ".toList).length = 44 := by decide
      rw [List.mem_singleton.mp last, summary, List.length_append, List.length_append, List.length_cons, front]
      omega
  · intro l member
    rcases List.mem_append.mp member with chunk | last
    · obtain ⟨c, -, rfl⟩ := List.mem_map.mp chunk
      refine not_mem_chunkText (fun b inside => ?_) (not_mem_decimal (by decide) _) (by decide)
      exact absurd ((isToken_formatByte b).1.2 10 inside) (by decide)
    · rw [List.mem_singleton.mp last, summary, List.mem_append, List.mem_append, List.mem_cons]
      rintro ((front | digit) | slash | digit)
      · exact absurd front (by decide)
      · exact not_mem_decimal (by decide) _ digit
      · exact absurd slash (by decide)
      · exact not_mem_decimal (by decide) _ digit

theorem chunkLines_output {cs : List (Fp × Nat)} {duplicate total : Nat} (smallD : duplicate < 2 ^ 64)
    (smallT : total < 2 ^ 64) :
    chunkLines (printed cs ++ (summary duplicate total ++ [10])) = cs.map fun c => printChunk c.1 (readAsInt c.2) := by
  unfold chunkLines
  rw [bufferLines_output smallD smallT, List.filter_append, List.filter_eq_self.mpr, List.filter_cons_of_neg,
    List.filter_nil, List.append_nil]
  · simp [isTitle_summary]
  · intro l member
    obtain ⟨c, -, rfl⟩ := List.mem_map.mp member
    rw [isTitle_printChunk]
    rfl

theorem chunks_output (cs : List (Fp × Nat)) {duplicate total : Nat} (smallD : duplicate < 2 ^ 64)
    (smallT : total < 2 ^ 64) :
    IsTrace (printed cs ++ (summary duplicate total ++ [10])) ∧
      chunks (printed cs ++ (summary duplicate total ++ [10])) = cs.map fun c => (c.1, readAsInt c.2) := by
  constructor
  · intro line member
    rw [chunkLines_output smallD smallT] at member
    obtain ⟨c, -, rfl⟩ := List.mem_map.mp member
    refine ⟨decimal (readAsInt c.2), ?_, decimal_digits _⟩
    unfold printChunk
    rw [readChunk_chunkText c.1 (isToken_decimal _).1 (isToken_decimal _).2]
  · unfold chunks
    rw [chunkLines_output smallD smallT, List.filterMap_map]
    have each : (chunkOf ∘ fun c : Fp × Nat => printChunk c.1 (readAsInt c.2)) = fun c => some (c.1, readAsInt c.2) :=
      funext fun c => chunkOf_printChunk c.1 (readAsInt c.2)
    rw [each]
    exact congrFun List.filterMap_eq_map' cs

/-! ### The program twice -/

theorem readAsInt_fixed {n : Nat} : readAsInt n = n ↔ n < 2 ^ 31 ∨ n = 2 ^ 64 - 1 := by
  by_cases long : n < 2 ^ 63
  · rw [readAsInt_eq_iff long]
    omega
  · have cut : min (2 ^ 63 - 1) (n : Int) = 2 ^ 63 - 1 := by omega
    have last : readAsInt n = 2 ^ 64 - 1 := by
      unfold readAsInt
      rw [cut]
      decide
    rw [last]
    omega

/-- `duplicate` reads every trace to its end. It keeps the repeated chunks as they are, and prints its own output again,
exactly if the size of every repeated chunk is a number that `atoi` can read. -/
theorem filters_iff {fp : Bytes} (trace : IsTrace fp) (long : fp.length < 2 ^ 63) :
    (∃ r, main fp = .ok r) ∧
      (Filters fp ↔ ∀ c ∈ repeated (chunks fp), c.2 < 2 ^ 31 ∨ c.2 = 2 ^ 64 - 1) := by
  have few : (chunks fp).length < 2 ^ 64 := by
    have lines := length_bufferLines_le 256 fp
    have plain : (chunkLines fp).length ≤ (bufferLines 256 fp).length := List.length_filter_le _ _
    have counted : (chunks fp).length ≤ (chunkLines fp).length := List.length_filterMap_le _ _
    omega
  have fewer : (repeated (chunks fp)).length < 2 ^ 64 := (List.length_filter_le _ _).trans_lt few
  obtain ⟨trace', again⟩ := chunks_output (repeated (chunks fp)) fewer few
  refine ⟨⟨_, main_trace trace few⟩, ?_⟩
  constructor
  · rintro ⟨r, ran, same, -⟩
    rw [main_trace trace few] at ran
    obtain rfl := Except.ok.inj ran
    dsimp only at same
    rw [again] at same
    intro c member
    have kept := List.map_inj_left.mp (same.trans (List.map_id _).symm) c member
    exact readAsInt_fixed.mp (congrArg Prod.snd kept)
  · intro small
    have fixed : ∀ c ∈ repeated (chunks fp), (c.1, readAsInt c.2) = c := fun c member =>
      Prod.ext rfl (readAsInt_fixed.mpr (small c member))
    have unchanged : (repeated (chunks fp)).map (fun c => (c.1, readAsInt c.2)) = repeated (chunks fp) :=
      (List.map_congr_left fixed).trans (List.map_id _)
    refine ⟨_, main_trace trace few, again.trans unchanged, ?_⟩
    have twice : repeated (repeated (chunks fp)) = repeated (chunks fp) := repeated_of_fst rfl
    have ran := main_trace trace' (by rw [again, List.length_map]; exact fewer)
    rw [again, unchanged, twice] at ran
    refine ⟨_, ran, ?_, rfl⟩
    dsimp only
    rw [chunkLines_output fewer fewer, chunkLines_output fewer few]

def sameChunkTwice (size : String) : Bytes :=
  chars ("Chunk Hash\n01:02:03:04:05:06\t".toList ++ size.toList ++ "\t10\n01:02:03:04:05:06\t".toList ++ size.toList ++
    "\t10\n".toList)

theorem filters_iff_sameChunkTwice : (∃ r, main (sameChunkTwice "8192") = .ok r) ∧
    (Filters (sameChunkTwice "8192") ↔
      ∀ c ∈ repeated (chunks (sameChunkTwice "8192")), c.2 < 2 ^ 31 ∨ c.2 = 2 ^ 64 - 1) := by
  refine filters_iff (fun line member => ?_) (by decide +kernel)
  have lines : chunkLines (sameChunkTwice "8192") = List.replicate 2 (chars "01:02:03:04:05:06\t8192\t10\n".toList) := by
    decide +kernel
  rw [lines] at member
  rw [List.eq_of_mem_replicate member]
  exact ⟨chars "8192".toList, by decide +kernel, by decide +kernel⟩

/-- The size 2^32 + 1 is read as 1, and printed as 1. -/
theorem sameChunkTwice_cut :
    chunks (sameChunkTwice "4294967297") = List.replicate 2 (Fp.ofBytes [1, 2, 3, 4, 5, 6], 4294967297) ∧
    (main (sameChunkTwice "4294967297")).toOption.map (fun r => chunks r.out) =
      some (List.replicate 2 (Fp.ofBytes [1, 2, 3, 4, 5, 6], 1)) ∧
    ¬ Filters (sameChunkTwice "4294967297") := by
  have read : chunks (sameChunkTwice "4294967297") = List.replicate 2 (Fp.ofBytes [1, 2, 3, 4, 5, 6], 4294967297) := by
    decide +kernel
  have written : (main (sameChunkTwice "4294967297")).toOption.map (fun r => chunks r.out) =
      some (List.replicate 2 (Fp.ofBytes [1, 2, 3, 4, 5, 6], 1)) := by decide +kernel
  refine ⟨read, written, ?_⟩
  rintro ⟨r, ran, same, -⟩
  rw [ran] at written
  rw [read] at same
  have equal := same.symm.trans (Option.some.inj written)
  exact absurd equal (by decide +kernel)

end EncryptedDedup.Duplicate
