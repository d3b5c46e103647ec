import EncryptedDedup.Bucket.EncryptFSL
import EncryptedDedup.Bucket.InferRun
import Mathlib.Data.Nat.Digits.Lemmas
import Mathlib.Data.Set.Function

/-!
# Encrypted traces

`readChunksToDBs` counts an encrypted trace as it counts the trace, with every fingerprint replaced.
-/

namespace EncryptedDedup.EncryptFSL
open ReadChunks

/-! ### The line format -/

theorem hexByte_formatByte (b : UInt8) : hexByte (formatByte b) = b := by
  have all : ∀ n < 256, hexByte (formatByte (UInt8.ofNat n)) = UInt8.ofNat n := by decide +kernel
  simpa using all b.toNat b.toNat_lt

theorem isToken_formatByte (b : UInt8) : IsToken (formatByte b) ∧ (0 : UInt8) ∉ formatByte b := by
  -- a test on booleans: the kernel decides `IsToken` itself far slower
  have all : ∀ n < 256, (formatByte (UInt8.ofNat n)).all
      (fun x => !(chars [':', '\t', '\n', ' ']).contains x && x != 0) = true := by decide +kernel
  have byte := all b.toNat b.toNat_lt
  rw [UInt8.ofNat_toNat, List.all_eq_true] at byte
  refine ⟨⟨List.cons_ne_nil _ _, fun x member => ?_⟩, fun zero => ?_⟩
  · have plain := byte x member
    rw [Bool.and_eq_true, Bool.not_eq_true'] at plain
    exact plain.1
  · have plain := byte 0 zero
    rw [Bool.and_eq_true] at plain
    exact absurd plain.2 (by decide)

theorem isToken_decimal (n : Nat) : IsToken (decimal n) ∧ (0 : UInt8) ∉ decimal n := by
  have digits := decimal_digits n
  have filled : decimal n ≠ [] := by
    intro empty
    have read := readMagnitude_decimal n
    rw [empty] at read
    obtain rfl : 0 = n := read
    cases empty
  have outside : ∀ c : UInt8, 48 ≤ c ∧ c ≤ 57 → (chars [':', '\t', '\n', ' ']).contains c = false ∧ c ≠ 0 := by
    intro c within
    have all : ∀ k < 10, (chars [':', '\t', '\n', ' ']).contains (UInt8.ofNat (48 + k)) = false ∧
        UInt8.ofNat (48 + k) ≠ 0 := by decide +kernel
    simp only [UInt8.le_iff_toNat_le] at within
    have low : 48 ≤ c.toNat := within.1
    have high : c.toNat ≤ 57 := within.2
    simpa [Nat.add_sub_cancel' low] using all (c.toNat - 48) (by omega)
  exact ⟨⟨filled, fun c member => (outside c (digits c member)).1⟩, fun zero => (outside 0 (digits 0 zero)).2 rfl⟩

theorem formatInt_bmod {n : Nat} (small : n < 2 ^ 31) : formatInt (Int.bmod n (2 ^ 32)) = decimal n := by
  have int : (n : Int).bmod (2 ^ 32) = n := by
    rw [Int.bmod_def]
    split <;> omega
  rw [int, formatInt, if_neg (by omega), Int.natAbs_natCast]

def hashFields (x : Fp) : List (Bytes × UInt8) :=
  (x.bytes.map formatByte).zip (chars [':', ':', ':', ':', ':', '\t'])

theorem length_hashFields (x : Fp) : (hashFields x).length = fpSize := by
  rw [hashFields, List.length_zip, List.length_map, x.size_eq]
  rfl

theorem mem_hashFields {x : Fp} {f : Bytes × UInt8} (member : f ∈ hashFields x) :
    ∃ b, f.1 = formatByte b ∧ (f.2 = 58 ∨ f.2 = 9) := by
  obtain ⟨token, delimiter⟩ := List.of_mem_zip (show (f.1, f.2) ∈ hashFields x from member)
  obtain ⟨b, -, same⟩ := List.mem_map.mp token
  refine ⟨b, same.symm, ?_⟩
  have all : ∀ c ∈ chars [':', ':', ':', ':', ':', '\t'], c = 58 ∨ c = 9 := by decide +kernel
  exact all f.2 delimiter

def chunkText (x : Fp) (size : Bytes) : Bytes := fields (hashFields x) (size ++ chars ['\t', '1', '0'])

theorem formatChunk_eq (x : Fp) {n : Nat} (small : n < 2 ^ 31) : formatChunk x n = chunkText x (decimal n) := by
  rw [formatChunk, ← hashFields, formatInt_bmod small, chunkText]

theorem not_mem_chunkText {x : Fp} {size : Bytes} {c : UInt8} (hash : ∀ b, c ∉ formatByte b) (outside : c ∉ size)
    (ends : c ∉ chars [':', '\t', '1', '0']) : c ∉ chunkText x size := by
  intro inside
  rw [chunkText, fields] at inside
  simp only [List.mem_append, List.mem_flatMap, List.mem_singleton] at inside
  simp only [chars, List.map_cons, List.map_nil, List.mem_cons, List.not_mem_nil, or_false, not_or] at ends inside
  rcases inside with ⟨f, member, token | delimiter⟩ | digit | rest
  · obtain ⟨b, same, -⟩ := mem_hashFields member
    exact hash b (same ▸ token)
  · obtain ⟨b, -, colon | tab⟩ := mem_hashFields member
    · exact ends.1 (delimiter.trans colon)
    · exact ends.2.1 (delimiter.trans tab)
  · exact outside digit
  · rcases rest with tab | one | zero
    · exact ends.2.1 tab
    · exact ends.2.2.1 one
    · exact ends.2.2.2 zero

theorem not_mem_formatChunk {x : Fp} {n : Nat} (small : n < 2 ^ 31) {c : UInt8} (hash : ∀ b, c ∉ formatByte b)
    (size : c ∉ decimal n) (ends : c ∉ chars [':', '\t', '1', '0']) : c ∉ formatChunk x n := by
  rw [formatChunk_eq x small]
  exact not_mem_chunkText hash size ends

theorem readChunk_chunkText (x : Fp) {size : Bytes} (token : IsToken size) (plain : (0 : UInt8) ∉ size) :
    readChunk (chunkText x size ++ [10]) = (x, some size) := by
  have line : chunkText x size ++ [10] = fields (hashFields x) (size ++ 9 :: chars ['1', '0', '\n']) := by
    rw [chunkText, fields, fields, List.append_assoc, List.append_assoc]
    rfl
  have visible : (0 : UInt8) ∉ chunkText x size ++ [10] := by
    rw [List.mem_append, not_or]
    exact ⟨not_mem_chunkText (fun b => (isToken_formatByte b).2) plain (by decide), by decide⟩
  rw [line] at visible ⊢
  rw [readChunk_fields (length_hashFields x) _ token (by decide) visible]
  · have bytes : (hashFields x).map (fun f => hexByte f.1) = x.bytes := by
      have tokens : (hashFields x).map Prod.fst = x.bytes.map formatByte := by
        apply List.map_fst_zip
        rw [List.length_map, x.size_eq]
        decide
      have read : (hashFields x).map (fun f => hexByte f.1) = ((hashFields x).map Prod.fst).map hexByte := by
        rw [List.map_map]
        rfl
      rw [read, tokens, List.map_map]
      exact (List.map_congr_left fun b _ => hexByte_formatByte b).trans (List.map_id _)
    rw [bytes, Fp.ofBytes_bytes]
  · intro f member
    obtain ⟨b, same, delimiter⟩ := mem_hashFields member
    refine ⟨same ▸ (isToken_formatByte b).1, ?_⟩
    rcases delimiter with colon | tab
    · rw [colon]
      decide
    · rw [tab]
      decide

theorem chunkOf_formatChunk (x : Fp) {n : Nat} (small : n < 2 ^ 31) :
    chunkOf (formatChunk x n ++ [10]) = some (x, decimal n) := by
  rw [chunkOf, formatChunk_eq x small, readChunk_chunkText x (isToken_decimal n).1 (isToken_decimal n).2, Option.map_some,
    toU64_atoi_decimal small]

theorem length_chunkText (x : Fp) (size : Bytes) : (chunkText x size).length = size.length + 21 := by
  have hash : ∀ fs : List (Bytes × UInt8), (∀ f ∈ fs, f.1.length = 2) →
      (fs.flatMap fun f => f.1 ++ [f.2]).length = 3 * fs.length := by
    intro fs
    induction fs with
    | nil => exact fun _ => rfl
    | cons f fs ih =>
      intro pairs
      have tail := ih fun g member => pairs g (List.mem_cons_of_mem _ member)
      have head := pairs f List.mem_cons_self
      simp only [List.flatMap_cons, List.length_append, List.length_cons, List.length_nil, tail, head]
      omega
  have pairs : ∀ f ∈ hashFields x, f.1.length = 2 := by
    intro f member
    obtain ⟨b, same, -⟩ := mem_hashFields member
    rw [same]
    rfl
  have six := length_hashFields x
  unfold fpSize at six
  rw [chunkText, fields, List.length_append, hash _ pairs, List.length_append, six]
  have last : (chars ['\t', '1', '0']).length = 3 := rfl
  omega

theorem length_decimal {n k : Nat} (small : n < 10 ^ (k + 1)) : (decimal n).length ≤ k + 1 := by
  rw [decimal]
  split
  · exact Nat.succ_le_succ (Nat.zero_le k)
  · rw [List.length_map, List.length_reverse, Nat.digits_length_le_iff (by decide)]
    exact small

theorem length_formatChunk (x : Fp) {n : Nat} (small : n < 2 ^ 31) : (formatChunk x n).length ≤ 31 := by
  have digits := length_decimal (k := 9) (n := n) (by omega)
  rw [formatChunk_eq x small, length_chunkText]
  omega

/-! ### The encrypted file -/

/-- Every line after the title has six hash tokens and a size from 0 to 2^31 - 1. -/
def WellFormed (fp : Bytes) : Prop := ∀ line ∈ chunkLines fp, ∃ item, (readChunk line).2 = some item ∧ 0 ≤ atoi item

theorem atoi_lt (s : Bytes) : atoi s < 2 ^ 31 := by
  have below := Int.bmod_lt (x := strtol 10 s) (m := 2 ^ 32) (by decide)
  unfold atoi
  omega

theorem chunkOf_wellFormed {line item : Bytes} (read : (readChunk line).2 = some item) :
    chunkOf line = some ((readChunk line).1, decimal (toU64 (atoi item))) := by
  rw [chunkOf, read, Option.map_some]

/-- What the program writes is read as the encrypted chunks with the same sizes. -/
theorem outPutChunks_wellFormed (md5 : Fp → Fp) {fp : Bytes} (wellFormed : WellFormed fp) :
    ∃ enc, outPutChunks md5 fp = some enc ∧
      (chunkLines enc).map chunkOf = (chunkLines fp).map fun line => (chunkOf line).map fun c => (md5 c.1, c.2) := by
  have encrypted : ∀ lines : List Bytes, (∀ line ∈ lines, ∃ item, (readChunk line).2 = some item ∧ 0 ≤ atoi item) →
      ∃ out, lines.mapM (encryptLine md5) = some out ∧
        (out.map fun l => chunkOf (l ++ [10])) = (lines.map fun line => (chunkOf line).map fun c => (md5 c.1, c.2)) ∧
        ∀ l ∈ out, l.length < 255 ∧ (10 : UInt8) ∉ l := by
    intro lines
    induction lines with
    | nil => exact fun _ => ⟨[], rfl, rfl, fun _ member => absurd member List.not_mem_nil⟩
    | cons line lines ih =>
      intro sized
      obtain ⟨item, read, positive⟩ := sized line List.mem_cons_self
      obtain ⟨out, written, same, fits⟩ := ih fun l member => sized l (List.mem_cons_of_mem _ member)
      have below := atoi_lt item
      have small : toU64 (atoi item) < 2 ^ 31 := by
        unfold toU64
        omega
      refine ⟨formatChunk (md5 (readChunk line).1) (toU64 (atoi item)) :: out, ?_, ?_, ?_⟩
      · have first : encryptLine md5 line = some (formatChunk (md5 (readChunk line).1) (toU64 (atoi item))) := by
          simp only [encryptLine, read, Option.map_some]
        rw [List.mapM_cons, first, written]
        rfl
      · rw [List.map_cons, List.map_cons, same, chunkOf_formatChunk _ small, chunkOf_wellFormed read, Option.map_some]
      · refine List.forall_mem_cons.mpr ⟨⟨?_, ?_⟩, fits⟩
        · exact lt_of_le_of_lt (length_formatChunk _ small) (by decide)
        · refine not_mem_formatChunk small (fun b inside => ?_) (fun inside => ?_) (by decide)
          · exact absurd ((isToken_formatByte b).1.2 10 inside) (by decide)
          · exact absurd ((isToken_decimal _).1.2 10 inside) (by decide)
  obtain ⟨out, written, same, fits⟩ := encrypted _ wellFormed
  refine ⟨((title :: out).map (· ++ [10])).flatten, ?_, ?_⟩
  · unfold chunkLines at written
    rw [outPutChunks, written]
    rfl
  · rw [chunkLines, bufferLines_flatten, List.map_cons, List.drop_one, List.tail_cons, List.map_map]
    · exact same
    · exact List.forall_mem_cons.mpr ⟨by decide, fun l member => Nat.succ_lt_succ (fits l member).1⟩
    · exact List.forall_mem_cons.mpr ⟨by decide, fun l member => (fits l member).2⟩

/-! ### Counting renamed chunks -/

variable {E : Fp → Fp} {seen : Set Fp} {s s' : State}

/-- Both databases hold the same chunks, with `E` applied on one side. -/
structure Renamed (E : Fp → Fp) (seen : Set Fp) (s s' : State) : Prop where
  known : ∀ x ∈ s.fcDb.keys, x ∈ seen
  counts : ∀ y v, s'.fcDb.get y = some v ↔ ∃ x, E x = y ∧ s.fcDb.get x = some v
  buckets : ∀ size, s.sfDb.get size = none ∧ s'.sfDb.get size = none ∨
    ∃ xs, s.sfDb.get size = some (pack xs) ∧ s'.sfDb.get size = some (pack (xs.map E))
  logic : s'.totalLogicChunkNumber = s.totalLogicChunkNumber
  unique : s'.totalUniqueChunkNumber = s.totalUniqueChunkNumber

theorem renamed_init : Renamed E seen State.init State.init where
  known _ member := absurd member List.not_mem_nil
  counts y v := by simp [State.init]
  buckets _ := Or.inl ⟨rfl, rfl⟩
  logic := rfl
  unique := rfl

theorem Renamed.get (renamed : Renamed E seen s s') (injective : Set.InjOn E seen) {x : Fp} (inside : x ∈ seen) :
    s'.fcDb.get (E x) = s.fcDb.get x := by
  apply Option.ext
  intro v
  rw [renamed.counts]
  constructor
  · rintro ⟨y, same, found⟩
    rwa [← injective (renamed.known y (OrderedMap.mem_keys.mpr ⟨v, found⟩)) inside same]
  · exact fun found => ⟨x, rfl, found⟩

theorem Renamed.insertFCdb (renamed : Renamed E seen s s') (injective : Set.InjOn E seen) {x : Fp} (inside : x ∈ seen) :
    ∃ v, (insertFCdb s.fcDb x).1 = s.fcDb.put x v ∧ (insertFCdb s'.fcDb (E x)).1 = s'.fcDb.put (E x) v ∧
      (insertFCdb s'.fcDb (E x)).2 = (insertFCdb s.fcDb x).2 := by
  unfold ReadChunks.insertFCdb
  rw [renamed.get injective inside]
  cases s.fcDb.get x with
  | none => exact ⟨_, rfl, rfl, rfl⟩
  | some exs => exact ⟨_, rfl, rfl, rfl⟩

theorem Renamed.put (renamed : Renamed E seen s s') (injective : Set.InjOn E seen) {x : Fp} (inside : x ∈ seen)
    (v : Bytes) (y : Fp) (w : Bytes) :
    (s'.fcDb.put (E x) v).get y = some w ↔ ∃ z, E z = y ∧ (s.fcDb.put x v).get z = some w := by
  simp only [OrderedMap.get_put]
  by_cases here : y = E x
  · subst here
    rw [if_pos rfl]
    constructor
    · exact fun same => ⟨x, rfl, by rw [if_pos rfl]; exact same⟩
    · rintro ⟨z, same, found⟩
      split at found
      · exact found
      · rename_i other
        exact absurd (injective (renamed.known z (OrderedMap.mem_keys.mpr ⟨w, found⟩)) inside same) other
  · rw [if_neg here, renamed.counts]
    refine exists_congr fun z => and_congr_right fun same => ?_
    rw [if_neg fun hit => here (by rw [← same, hit])]

theorem length_pack_mod (xs : List Fp) : (pack xs).length % 6 = 0 := by
  rw [length_pack]
  exact Nat.mul_mod_right 6 _

theorem Renamed.insertSFdb (renamed : Renamed E seen s s') (size : Bytes) (x : Fp) :
    ∃ xs, insertSFdb s.sfDb size x.bytes = .ok (s.sfDb.put size (pack xs)) ∧
      insertSFdb s'.sfDb size (E x).bytes = .ok (s'.sfDb.put size (pack (xs.map E))) := by
  have single : ∀ y : Fp, pack [y] = y.bytes := fun y => List.append_nil _
  unfold ReadChunks.insertSFdb
  rcases renamed.buckets size with ⟨absent, absent'⟩ | ⟨xs, found, found'⟩
  · rw [absent, absent']
    refine ⟨[x], ?_, ?_⟩
    · rw [single]
    · rw [List.map_singleton, single]
  · have grown : ∀ (ys : List Fp) (y : Fp), pack ys ++ y.bytes = pack (ys ++ [y]) := by
      intro ys y
      rw [pack_append, single]
    rw [found, found']
    refine ⟨xs ++ [x], ?_, ?_⟩
    · dsimp only
      rw [grown, if_neg (not_not_intro (length_pack_mod _))]
    · dsimp only
      rw [grown, if_neg (not_not_intro (length_pack_mod _)), List.map_append, List.map_singleton]

theorem insertChunk_renamed (renamed : Renamed E seen s s') (injective : Set.InjOn E seen) {x : Fp} (inside : x ∈ seen)
    (size : Bytes) :
    ∃ t t', insertChunk s x size = .ok t ∧ insertChunk s' (E x) size = .ok t' ∧ Renamed E seen t t' := by
  obtain ⟨v, stored, stored', same⟩ := renamed.insertFCdb injective inside
  have known : ∀ y ∈ (s.fcDb.put x v).keys, y ∈ seen := by
    intro y member
    rcases OrderedMap.mem_keys_put.mp member with rfl | before
    · exact inside
    · exact renamed.known y before
  have counts := renamed.put injective inside v
  rw [← stored] at known
  rw [← stored, ← stored'] at counts
  have logic := congrArg (· + 1) renamed.logic
  by_cases new : (insertFCdb s.fcDb x).2 = 1
  · obtain ⟨xs, joined, joined'⟩ := renamed.insertSFdb size x
    refine ⟨_, _, insertChunk_new new joined, insertChunk_new (same.trans new) joined', known, counts, ?_, logic,
      congrArg (· + 1) renamed.unique⟩
    intro label
    dsimp only
    rw [OrderedMap.get_put, OrderedMap.get_put]
    split
    · exact Or.inr ⟨xs, rfl, rfl⟩
    · exact renamed.buckets label
  · exact ⟨_, _, insertChunk_known new, insertChunk_known fun one => new (same.symm.trans one), known, counts,
      renamed.buckets, logic, renamed.unique⟩

theorem foldlM_renamed (injective : Set.InjOn E seen) (lines lines' : List Bytes)
    (same : lines'.map chunkOf = lines.map fun line => (chunkOf line).map fun c => (E c.1, c.2))
    (sized : ∀ line ∈ lines, ∃ c, chunkOf line = some c ∧ c.1 ∈ seen) (renamed : Renamed E seen s s') :
    ∃ t t', lines.foldlM readLine s = .ok t ∧ lines'.foldlM readLine s' = .ok t' ∧ Renamed E seen t t' := by
  induction lines generalizing lines' s s' with
  | nil =>
    obtain rfl := List.map_eq_nil_iff.mp same
    exact ⟨s, s', rfl, rfl, renamed⟩
  | cons line lines ih =>
    obtain ⟨line', lines', rfl, first, rest⟩ := List.map_eq_cons_iff.mp same
    obtain ⟨⟨x, size⟩, chunk, inside⟩ := sized line List.mem_cons_self
    dsimp only at first
    rw [chunk, Option.map_some] at first
    obtain ⟨s₁, s₁', inserted, inserted', renamed₁⟩ := insertChunk_renamed renamed injective inside size
    obtain ⟨t, t', later, later', final⟩ :=
      ih lines' rest (fun l member => sized l (List.mem_cons_of_mem _ member)) renamed₁
    refine ⟨t, t', ?_, ?_, final⟩
    · rw [List.foldlM_cons, readLine, chunk]
      dsimp only
      rw [inserted]
      exact later
    · rw [List.foldlM_cons, readLine, first]
      dsimp only
      rw [inserted']
      exact later'

/-! ### The image of a run -/

def renameBucket (E : Fp → Fp) (set : Bytes) : Bytes :=
  ((cut fpSize set).map fun part => (E (Fp.ofBytes part)).bytes).flatten

structure Image (E : Fp → Fp) (s s' : State) : Prop where
  counts : ∀ y v, s'.fcDb.get y = some v ↔ ∃ x, E x = y ∧ s.fcDb.get x = some v
  buckets : ∀ size, s'.sfDb.get size = (s.sfDb.get size).map (renameBucket E)
  logic : s'.totalLogicChunkNumber = s.totalLogicChunkNumber
  unique : s'.totalUniqueChunkNumber = s.totalUniqueChunkNumber

theorem renameBucket_pack (E : Fp → Fp) (xs : List Fp) : renameBucket E (pack xs) = pack (xs.map E) := by
  rw [renameBucket, cut_pack, List.map_map, pack, List.map_map]
  congr 1
  apply List.map_congr_left
  intro x _
  rw [Function.comp_apply, Function.comp_apply, Fp.ofBytes_bytes]

theorem Renamed.image (renamed : Renamed E seen s s') : Image E s s' where
  counts := renamed.counts
  buckets size := by
    rcases renamed.buckets size with ⟨absent, absent'⟩ | ⟨xs, found, found'⟩
    · rw [absent, absent', Option.map_none]
    · rw [found, found', Option.map_some, renameBucket_pack]
  logic := renamed.logic
  unique := renamed.unique

def fingerprints (fp : Bytes) : Set Fp := {x | x ∈ (seenBy [fp]).map Prod.fst}

/-- Counting the encrypted trace gives the encryption of what counting the trace gives. -/
theorem feed_encrypted (E : Fp → Fp) (fp : Bytes) (wellFormed : WellFormed fp)
    (injective : Set.InjOn E (fingerprints fp)) :
    ∃ enc s s', outPutChunks E fp = some enc ∧ feed [fp] = .ok s ∧ feed [enc] = .ok s' ∧ Image E s s' := by
  obtain ⟨enc, written, same⟩ := outPutChunks_wellFormed E wellFormed
  have sized : ∀ line ∈ chunkLines fp, ∃ c, chunkOf line = some c ∧ c.1 ∈ fingerprints fp := by
    intro line member
    obtain ⟨item, read, -⟩ := wellFormed line member
    refine ⟨_, chunkOf_wellFormed read, ?_⟩
    apply List.mem_map_of_mem (f := Prod.fst)
    rw [seenBy, List.flatMap_singleton]
    exact List.mem_filterMap.mpr ⟨line, member, chunkOf_wellFormed read⟩
  obtain ⟨s, s', counted, counted', renamed⟩ := foldlM_renamed injective _ _ same sized renamed_init
  have single : ∀ file t, (chunkLines file).foldlM readLine State.init = .ok t → feed [file] = .ok t := by
    intro file t finished
    rw [feed, List.foldlM_cons, readInChunks]
    exact (congrArg (· >>= fun t => [].foldlM readInChunks t) finished).trans rfl
  exact ⟨enc, s, s', written, single fp s counted, single enc s' counted', renamed.image⟩

theorem feed_encrypted_plainTrace :
    ∃ enc s s', outPutChunks InferChunks.digest InferChunks.plainTrace = some enc ∧
      feed [InferChunks.plainTrace] = .ok s ∧ feed [enc] = .ok s' ∧ Image InferChunks.digest s s' := by
  apply feed_encrypted
  · have sized : ∀ line ∈ chunkLines InferChunks.plainTrace,
        (readChunk line).2.any (fun item => 0 ≤ atoi item) = true := by decide +kernel
    intro line member
    have size := sized line member
    rw [Option.any_eq_true] at size
    obtain ⟨item, read, positive⟩ := size
    exact ⟨item, read, of_decide_eq_true positive⟩
  · have distinct : ∀ x ∈ (seenBy [InferChunks.plainTrace]).map Prod.fst,
        ∀ y ∈ (seenBy [InferChunks.plainTrace]).map Prod.fst, InferChunks.digest x = InferChunks.digest y → x = y := by
      decide +kernel
    exact fun x inside y inside' => distinct x inside y inside'

end EncryptedDedup.EncryptFSL
