import EncryptedDedup.Bucket.ReadChunksFileRun
import EncryptedDedup.Bucket.ReadTypesRun

/-!
# Chunks past the end of the trace

The loop over the chunks of a file does not look at the end of the trace. What it reads there is in the
records like any other chunk.
-/

namespace EncryptedDedup.ReadChunksFile
open TypeList
open LocalityCount (pack packed)
open ReadTypes (typeDigest)

def traceLines (fp : Bytes) : List Bytes := (Reader.start fp).lines

def countSum (value : Bytes) : Nat := ((cut recordSize value).map fun r => ofLE ((r.drop fpSize).take 8)).sum

/-- The records hold chunks of the trace only, and count no more than there are. -/
structure Recorded (fp : Bytes) (s : State) : Prop where
  fingerprints : ∀ e ∈ s.fcDb.entries, ∀ r ∈ cut recordSize e.2,
    ∃ line ∈ traceLines fp, r.take fpSize = (readChunk line).1.bytes
  counts : (s.fcDb.entries.map fun e => countSum e.2).sum ≤ (traceLines fp).length

/-- The number of chunks that the list claims, as the program reads it. -/
def listedChunks (typeFp : Bytes) : Nat := ((listedFiles [] (bufferLines 256 typeFp)).map Prod.snd).sum

/-! ### The files of a list -/

/-- What the database holds after the chunks `done` were read: histograms of such chunks, which count them all. -/
structure Accounts (done : List Fp) (s : State) : Prop where
  older : ∀ k v, s.fcDb.get k = some v → ∃ j < s.fileIndex, k.take 8 = u64 j
  values : ∀ k v, s.fcDb.get k = some v → ∃ chunks : List Fp, v = pack (histogram chunks) ∧ ∀ x ∈ chunks, x ∈ done
  total : (s.fcDb.entries.map fun e => countSum e.2).sum = done.length

theorem accounts_start (fp : Bytes) : Accounts [] ⟨.empty, 0, 0, .start fp⟩ :=
  ⟨fun _ _ none => (nomatch none), fun _ _ none => (nomatch none), rfl⟩

theorem Accounts.absent {done : List Fp} {s : State} (accounts : Accounts done s) (room : s.fileIndex < 2 ^ 64)
    (n : Nat) (typeHash : Fp) : metaKey s.fileIndex n typeHash ∉ s.fcDb.keys := by
  intro known
  obtain ⟨v, found⟩ := OrderedMap.mem_keys.mp known
  obtain ⟨j, below, same⟩ := accounts.older _ v found
  rw [metaKey_take] at same
  exact absurd (u64_inj room (below.trans room) same) (Nat.ne_of_gt below)

theorem histogram_eq_nil {chunks : List Fp} : histogram chunks = [] ↔ chunks = [] := by
  constructor
  · intro none
    by_contra some
    obtain ⟨x, rest, rfl⟩ := List.exists_cons_of_ne_nil some
    have member : x.bytes ∈ (histogram (x :: rest)).map Prod.fst := by
      rw [histogram, mem_keys_tally]
      exact List.mem_map_of_mem List.mem_cons_self
    rw [none] at member
    exact absurd member List.not_mem_nil
  · rintro rfl
    rfl

variable {md5 : Bytes → Fp}

variable (md5) in
theorem Accounts.readFile {done : List Fp} {s : State} (accounts : Accounts done s) {file : Bytes × Nat}
    (word : file.2 < 2 ^ 64) (room : s.fileIndex < 2 ^ 64) :
    ∃ s', readFile md5 s file = .ok s' ∧ s'.reader = Reader.next^[file.2] s.reader ∧
      s'.fileIndex = s.fileIndex + 1 ∧ Accounts (done ++ reads file.2 s.reader) s' := by
  have fresh := accounts.absent room file.2 (md5 file.1)
  have vacant := OrderedMap.get_eq_none.mpr fresh
  obtain ⟨s', finished, left, index, gets⟩ := @readLines_reads (metaKey s.fileIndex file.2 (md5 file.1)) file.2 []
    { s with fileIndex := s.fileIndex + 1 } (by rw [vacant]; rfl)
  rw [List.nil_append] at gets
  refine ⟨s', finished, left, index, ?_⟩
  have length := length_reads file.2 s.reader
  by_cases nothing : reads file.2 s.reader = []
  · have same : s'.fcDb = s.fcDb := by
      apply OrderedMap.ext_get
      intro k
      rw [gets]
      split
      · rename_i here
        rw [here, vacant, nothing]
        rfl
      · rfl
    rw [nothing, List.append_nil]
    refine ⟨fun k v found => ?_, fun k v found => ?_, ?_⟩
    · rw [same] at found
      obtain ⟨j, below, prefix_⟩ := accounts.older k v found
      exact ⟨j, by rw [index]; exact Nat.lt_succ_of_lt below, prefix_⟩
    · rw [same] at found
      exact accounts.values k v found
    · rw [same]
      exact accounts.total
  · have same : s'.fcDb = s.fcDb.put (metaKey s.fileIndex file.2 (md5 file.1)) (pack (histogram (reads file.2 s.reader))) := by
      apply OrderedMap.ext_get
      intro k
      rw [gets, OrderedMap.get_put, LocalityCount.packed_ne_nil (mt histogram_eq_nil.mp nothing)]
      by_cases here : k = metaKey s.fileIndex file.2 (md5 file.1)
      · rw [if_pos here, if_pos here]
      · rw [if_neg here, if_neg here]
    refine ⟨fun k v found => ?_, fun k v found => ?_, ?_⟩
    · rw [same, OrderedMap.get_put] at found
      rw [index]
      split at found
      · rename_i here
        exact ⟨s.fileIndex, Nat.lt_succ_self _, by rw [here, metaKey_take]⟩
      · obtain ⟨j, below, prefix_⟩ := accounts.older k v found
        exact ⟨j, Nat.lt_succ_of_lt below, prefix_⟩
    · rw [same, OrderedMap.get_put] at found
      split at found
      · exact ⟨_, (Option.some.inj found).symm, fun x member => List.mem_append_right _ member⟩
      · obtain ⟨chunks, value, known⟩ := accounts.values k v found
        exact ⟨chunks, value, fun x member => List.mem_append_left _ (known x member)⟩
    · have sum : countSum (pack (histogram (reads file.2 s.reader))) = file.2 := by
        unfold countSum
        rw [sum_records (length.trans_lt word), length]
      rw [same, ((OrderedMap.entries_put_new fresh _).map _).sum_eq, List.map_append, List.sum_append, accounts.total,
        List.map_singleton, List.sum_singleton, sum, List.length_append, length]

variable (md5) in
theorem Accounts.foldlM {files : List (Bytes × Nat)} {done : List Fp} {s : State} (accounts : Accounts done s)
    (words : ∀ f ∈ files, f.2 < 2 ^ 64) (room : s.fileIndex + files.length ≤ 2 ^ 64) :
    ∃ s', files.foldlM (ReadChunksFile.readFile md5) s = .ok s' ∧
      Accounts (done ++ reads (files.map Prod.snd).sum s.reader) s' := by
  induction files generalizing done s with
  | nil => exact ⟨s, rfl, by simpa [reads] using accounts⟩
  | cons file files ih =>
    obtain ⟨word, words⟩ := List.forall_mem_cons.mp words
    rw [List.length_cons] at room
    obtain ⟨s₁, first, left, index, accounts₁⟩ := accounts.readFile md5 word (by omega)
    obtain ⟨s', rest, accounts'⟩ := ih accounts₁ words (by omega)
    refine ⟨s', ?_, ?_⟩
    · rw [List.foldlM_cons, first]
      exact rest
    · rw [List.map_cons, List.sum_cons, reads_add, ← List.append_assoc, ← left]
      exact accounts'

/-! ### Lists that can be read -/

def Readable (typeFp : Bytes) : Prop :=
  (readFiles (fun (_ : Unit) _ => .ok ()) [] (bufferLines 256 typeFp) ()).isOk = true

theorem readFiles_of_readable {σ : Type} {readFile : σ → Bytes × Nat → Except Stop σ} (typeNumBuffer : Bytes)
    (lines : List Bytes) (s : σ) (readable : (readFiles (fun (_ : Unit) _ => .ok ()) typeNumBuffer lines ()).isOk = true) :
    readFiles readFile typeNumBuffer lines s = (listedFiles typeNumBuffer lines).foldlM readFile s := by
  induction typeNumBuffer, lines using listedFiles.induct generalizing s with
  | case1 => rfl
  | case2 typeNumBuffer typeBuffer =>
    rw [readFiles] at readable ⊢
    rw [listedFiles]
    cases file : fileOf typeBuffer typeNumBuffer with
    | error stop =>
      rw [file] at readable
      cases readable
    | ok file' => exact (bind_pure _).symm
  | case3 _ typeBuffer typeNumBuffer rest stop file =>
    rw [readFiles, file] at readable
    cases readable
  | case4 _ typeBuffer typeNumBuffer rest file' file ih =>
    rw [readFiles, file] at readable ⊢
    rw [listedFiles, file]
    change (readFile s file' >>= _) = _
    rw [List.foldlM_cons]
    congr 1
    funext s₁
    exact ih s₁ readable

theorem fileOf_word {typeBuffer typeNumBuffer : Bytes} {f : Bytes × Nat} (file : fileOf typeBuffer typeNumBuffer = .ok f) :
    f.2 < 2 ^ 64 := by
  unfold fileOf at file
  split at file
  · cases file
  · split at file
    · cases file
    · cases file
    · obtain rfl := Except.ok.inj file
      unfold toU64
      omega

theorem listedFiles_words (typeNumBuffer : Bytes) (lines : List Bytes) :
    (∀ f ∈ listedFiles typeNumBuffer lines, f.2 < 2 ^ 64) ∧ (listedFiles typeNumBuffer lines).length ≤ lines.length := by
  induction typeNumBuffer, lines using listedFiles.induct with
  | case1 => exact ⟨fun _ member => absurd member List.not_mem_nil, Nat.le_refl 0⟩
  | case2 typeNumBuffer typeBuffer =>
    rw [listedFiles]
    cases file : fileOf typeBuffer typeNumBuffer with
    | error stop => exact ⟨fun _ member => absurd member List.not_mem_nil, Nat.zero_le _⟩
    | ok f =>
      refine ⟨fun f' member => ?_, Nat.le_refl 1⟩
      rw [List.mem_singleton.mp member]
      exact fileOf_word file
  | case3 _ typeBuffer typeNumBuffer rest stop file =>
    rw [listedFiles, file]
    exact ⟨fun _ member => absurd member List.not_mem_nil, Nat.zero_le _⟩
  | case4 _ typeBuffer typeNumBuffer rest f file ih =>
    rw [listedFiles, file]
    refine ⟨List.forall_mem_cons.mpr ⟨fileOf_word file, ih.1⟩, ?_⟩
    rw [List.length_cons, List.length_cons, List.length_cons]
    omega

/-! ### Phantom chunks -/

theorem recorded_iff_of_accounts {fp : Bytes} {n : Nat} {s : State} (accounts : Accounts (reads n (.start fp)) s) :
    Recorded fp s ↔ n ≤ (traceLines fp).length := by
  have total := accounts.total
  rw [length_reads] at total
  constructor
  · intro recorded
    exact total.symm.trans_le recorded.counts
  · intro enough
    refine ⟨fun e member r inside => ?_, total.trans_le enough⟩
    obtain ⟨chunks, value, known⟩ := accounts.values e.1 e.2 ((s.fcDb.get_eq_some e.1 e.2).mpr member)
    have keyed := keyed_histogram chunks
    rw [value, cut_pack keyed] at inside
    obtain ⟨entry, stored, rfl⟩ := List.mem_map.mp inside
    have key : entry.1 ∈ (histogram chunks).map Prod.fst := List.mem_map_of_mem stored
    rw [histogram, mem_keys_tally] at key
    obtain ⟨x, counted, same⟩ := List.mem_map.mp key
    have read := known x counted
    rw [reads_of_enough enough] at read
    obtain ⟨line, listed, rfl⟩ := List.mem_map.mp read
    exact ⟨line, List.mem_of_mem_take listed, by rw [(record_parts (keyed entry stored)).1, same]⟩

/-- A run on a list that can be read ends. The records hold chunks of the trace, and no more than it has, exactly if the
list does not claim more chunks than there are. -/
theorem recorded_iff (md5 : Bytes → Fp) (fp typeFp : Bytes) (fits : typeFp.length < 2 ^ 63) :
    (Readable typeFp → ∃ s, readInChunks md5 fp typeFp = .ok s) ∧
    ∀ s, readInChunks md5 fp typeFp = .ok s → (Recorded fp s ↔ listedChunks typeFp ≤ (traceLines fp).length) := by
  obtain ⟨words, few⟩ := listedFiles_words [] (bufferLines 256 typeFp)
  have lines := length_bufferLines_le 256 typeFp
  obtain ⟨s, finished, accounts⟩ := (accounts_start fp).foldlM md5 words (by dsimp only; omega)
  rw [List.nil_append] at accounts
  refine ⟨fun readable => ⟨s, ?_⟩, fun s' ran => ?_⟩
  · unfold readInChunks
    rw [readFiles_of_readable _ _ _ readable]
    exact finished
  · obtain rfl := Except.ok.inj ((readFiles_ok _ _ ran).symm.trans finished)
    exact recorded_iff_of_accounts accounts

def shortTrace : Bytes := ReadChunks.traceFile [("1:2:0:0:0:0", "8")]

def longList : Bytes := (["txt", "2"].map fun line => chars line.toList ++ [10]).flatten

theorem recorded_iff_short : (Readable longList → ∃ s, readInChunks typeDigest shortTrace longList = .ok s) ∧
    ∀ s, readInChunks typeDigest shortTrace longList = .ok s →
      (Recorded shortTrace s ↔ listedChunks longList ≤ (traceLines shortTrace).length) :=
  recorded_iff typeDigest shortTrace longList (by decide)

/-- The second chunk is the first byte of the line that was read before, with zeros behind it. -/
theorem recorded_phantom : ∃ s, readInChunks typeDigest shortTrace longList = .ok s ∧
    s.fcDb.entries.map Prod.snd = [[1, 2, 0, 0, 0, 0] ++ u64 1 ++ [1, 0, 0, 0, 0, 0] ++ u64 1] ∧
    (traceLines shortTrace).map (fun line => (readChunk line).1.bytes) = [[1, 2, 0, 0, 0, 0]] ∧
    ¬ Recorded shortTrace s := by
  have values : (readInChunks typeDigest shortTrace longList).toOption.map (fun s => s.fcDb.entries.map Prod.snd) =
      some [[1, 2, 0, 0, 0, 0] ++ u64 1 ++ [1, 0, 0, 0, 0, 0] ++ u64 1] := by decide +kernel
  cases ran : readInChunks typeDigest shortTrace longList with
  | error stop =>
    rw [ran] at values
    cases values
  | ok s =>
    rw [ran] at values
    have value : s.fcDb.entries.map Prod.snd = [[1, 2, 0, 0, 0, 0] ++ u64 1 ++ [1, 0, 0, 0, 0, 0] ++ u64 1] :=
      Option.some.inj values
    refine ⟨s, rfl, value, by decide +kernel, fun recorded => ?_⟩
    have sum : (s.fcDb.entries.map fun e => countSum e.2).sum = ((s.fcDb.entries.map Prod.snd).map countSum).sum := by
      rw [List.map_map]
      rfl
    have counts := recorded.counts
    rw [sum, value] at counts
    revert counts
    decide +kernel

end EncryptedDedup.ReadChunksFile
