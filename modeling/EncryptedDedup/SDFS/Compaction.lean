import EncryptedDedup.SDFS.SealedArchive

/-!
# Compaction of archives

What is still needed is read from the new files as it was from the old ones, also when a compaction fails.
-/

namespace EncryptedDedup.SDFS.HashBlobArchive
open SimpleByteArrayLongMap (Layout IsKey)

variable {a : Archive} {T T' : Layout} {site : Site} {st : Stored} {rs done : List Reserved} {w w' : Writer} {r : Reserved}
  {hash chunk : Bytes} {c : Outside}

/-! ### The copies -/

structure Copied (rs : List Reserved) (hashes : List Bytes) (done : List Reserved) : Prop where
  hashes : ∀ hash, hash ∈ done.map Reserved.hash ↔ hash ∈ hashes
  chunks : ∀ r ∈ done, chunkOf rs r.hash = some r.chunk

theorem Copied.nil (rs : List Reserved) : Copied rs [] [] := ⟨fun _ => Iff.rfl, fun _ member => nomatch member⟩

theorem Copied.known {hashes : List Bytes} (copied : Copied rs hashes done) (known : hash ∈ done.map Reserved.hash) :
    Copied rs (hashes ++ [hash]) done := by
  refine ⟨fun h => (copied.hashes h).trans ⟨List.mem_append_left _, fun member => ?_⟩, copied.chunks⟩
  rcases List.mem_append.mp member with before | here
  · exact before
  · rw [List.mem_singleton.mp here]
    exact (copied.hashes hash).mp known

theorem Copied.put {hashes : List Bytes} (copied : Copied rs hashes done) (put : chunkOf rs r.hash = some r.chunk) :
    Copied rs (hashes ++ [r.hash]) (r :: done) := by
  constructor
  · intro h
    rw [List.map_cons, List.mem_cons, List.mem_append, List.mem_singleton, copied.hashes]
    exact or_comm
  · intro r' member
    rcases List.mem_cons.mp member with rfl | earlier
    · exact put
    · exact copied.chunks r' earlier

theorem Copied.chunkOf {hashes : List Bytes} (copied : Copied rs hashes done) (single : (done.map Reserved.hash).Nodup)
    (hash : Bytes) : chunkOf done hash = if hash ∈ hashes then HashBlobArchive.chunkOf rs hash else none := by
  unfold HashBlobArchive.chunkOf
  cases there : recordOf done hash with
  | none =>
    rw [if_neg, Option.map_none]
    intro member
    obtain ⟨r, inside, same⟩ := List.mem_map.mp ((copied.hashes hash).mpr member)
    exact absurd (decide_eq_true same) (List.find?_eq_none.mp there r inside)
  | some r =>
    obtain ⟨member, rfl⟩ := (recordOf_some single).mp there
    rw [if_pos ((copied.hashes _).mp (List.mem_map_of_mem member)), Option.map_some]
    exact (copied.chunks r member).symm

theorem chunkOf_none (absent : hash ∉ rs.map Reserved.hash) : chunkOf rs hash = none := by
  have nothing : recordOf rs hash = none :=
    List.find?_eq_none.mpr fun r member same => absent (List.mem_map.mpr ⟨r, member, of_decide_eq_true same⟩)
  rw [chunkOf, nothing, Option.map_none]

theorem Sealed.read_record (sealed : Sealed T st rs) (site : Site) (member : r ∈ rs) :
    st.read site r.hash = some r.chunk ∧ chunkOf rs r.hash = some r.chunk := by
  have chunk : chunkOf rs r.hash = some r.chunk := by
    rw [chunkOf, (recordOf_some sealed.single).mpr ⟨member, rfl⟩, Option.map_some]
  exact ⟨(sealed.read site (sealed.plain r member)).trans chunk, chunk⟩

theorem isKey_congr (same : T'.hashLength = T.hashLength) (plain : IsKey T hash) : IsKey T' hash :=
  ⟨by rw [same]; exact plain.length, by rw [same]; exact plain.not_free⟩

theorem found_alone (opens : a.Opens c.id) : c.found a = alone := by
  simp [Outside.found, alone, opens]

theorem found_shut (shut : ¬ a.Opens c.id) (w : Writer) (hash chunk : Bytes) :
    ∃ w' e, putChunk a w hash chunk (c.found a) = (w', .error e) ∧ e ≠ .hashExists ∧ (Room a w → e = .io) := by
  apply putChunk_unopened
  · rfl
  · rfl
  · simp [Outside.found, shut]

theorem copyChunks_writing (sealed : Sealed T st rs) (uses : a.Uses T') (same : T'.hashLength = T.hashLength)
    (calls : ∀ r ∈ rs, Call a r.hash r.chunk) {ar : List (Bytes × Int)} (listed : ∀ e ∈ ar, e.1 ∈ rs.map Reserved.hash)
    {hashes : List Bytes} (writing : Writing a T' ⟨w, [], done⟩) (copied : Copied rs hashes done)
    (ends : copyChunks site st c a ar w = .ok w') :
    ∃ done', Writing a T' ⟨w', [], done'⟩ ∧ Copied rs (hashes ++ ar.map Prod.fst) done' := by
  induction ar generalizing w done hashes with
  | nil =>
    obtain rfl := Except.ok.inj ends
    exact ⟨done, writing, by rwa [List.map_nil, List.append_nil]⟩
  | cons e ar ih =>
    obtain ⟨key, value⟩ := e
    obtain ⟨r, member, rfl⟩ := List.mem_map.mp (listed (key, value) List.mem_cons_self)
    obtain ⟨read, chunk⟩ := sealed.read_record site member
    have later : ∀ e ∈ ar, e.1 ∈ rs.map Reserved.hash := fun e inside => listed e (List.mem_cons_of_mem _ inside)
    have whole : hashes ++ ((r.hash, value) :: ar).map Prod.fst = (hashes ++ [r.hash]) ++ ar.map Prod.fst := by
      rw [List.map_cons, List.append_assoc, List.singleton_append]
    rw [whole]
    rw [copyChunks] at ends
    split at ends
    · cases ends
    · rw [read] at ends
      dsimp only at ends
      by_cases opens : a.Opens c.id
      case neg =>
        obtain ⟨w₁, e, put, other, -⟩ := found_shut opens w r.hash r.chunk
        rw [put] at ends
        cases e with
        | hashExists => exact absurd rfl other
        | _ => cases ends
      rw [found_alone opens] at ends
      rcases putChunk_cases uses writing (calls r member) (isKey_congr same (sealed.plain r member)) with
        ⟨-, w₁, e, put, other, -⟩ | ⟨-, known, put⟩ | ⟨-, -, w₁, r', put, hash, chunk', -, writing'⟩
      · rw [put] at ends
        cases e with
        | hashExists => exact absurd rfl other
        | _ => cases ends
      · rw [put] at ends
        exact ih later writing (copied.known known) ends
      · rw [put] at ends
        rw [← hash]
        refine ih later writing' (copied.put ?_) ends
        rw [hash, chunk', chunk]

/-! ### The new archive -/

/-- The cipher of the new archive has an inverse, and its texts are as long as those of the old one. -/
structure Outside.Lawful (c : Outside) (a : Archive) : Prop where
  decrypt : ∀ b, c.decryptCBC (c.encryptCBC b) = some b
  padded : ∀ b, c.encryptCBC b ≠ []
  length : ∀ b, (c.encryptCBC b).length = (a.encryptCBC b).length

/-- The files are so small that the offsets and the new map are of the type `int`. -/
structure Small (st : Stored) (rs : List Reserved) : Prop where
  f : st.f.length + 4 + st.setup.hashLength < 2 ^ 31
  map : (4 * rs.length + 17) * (st.setup.hashLength + 8) + 16 < 2 ^ 31

@[simp] theorem staged_offset (a : Archive) (c : Outside) (size : Nat) (bsz : Int) :
    (a.staged c size bsz).offset = a.offset := rfl

@[simp] theorem staged_hashLength (a : Archive) (c : Outside) (size : Nat) (bsz : Int) :
    (a.staged c size bsz).hashLength = a.hashLength := rfl

theorem staged_opens {size : Nat} {bsz id : Int} : (a.staged c size bsz).Opens id ↔ a.Opens id := Iff.rfl

theorem length_encode_staged (lawful : c.Lawful a) (size : Nat) (bsz : Int) (chunk : Bytes) :
    ((a.staged c size bsz).encode chunk).length = (a.encode chunk).length := by
  unfold Archive.encode Archive.staged
  dsimp only
  split
  · exact lawful.length _
  · rfl

theorem Call.staged (call : Call a hash chunk) (lawful : c.Lawful a) (size : Nat) (bsz : Int) :
    Call (a.staged c size bsz) hash chunk :=
  ⟨call.hashLength, call.nonempty, call.small, by rw [length_encode_staged lawful]; exact call.fits⟩

theorem Small.blocksz (small : Small st rs) (some_bytes : 0 < st.f.length) (size : Nat) :
    (st.setup.staged c size (int st.f.length)).blocksz = st.f.length := by
  have file := small.f
  have whole : int st.f.length = st.f.length := by
    rw [int, bmod_small (by omega) (by omega)]
  unfold Archive.staged
  dsimp only
  rw [whole, if_pos (by omega), Int.toNat_natCast]

theorem Archive.Uses.staged (uses : a.Uses T) (lawful : c.Lawful a) {size : Nat} {bsz : Int}
    (fits : (a.staged c size bsz).blocksz + 4 + a.hashLength < 2 ^ 31) (hashLength : T'.hashLength = T.hashLength)
    (version : T'.version = T.version) (slots : T'.size = size) (large : 2 < size) : (a.staged c size bsz).Uses T' := by
  refine ⟨⟨uses.lawful.decompress, lawful.decrypt, lawful.padded, fits⟩, uses.here, ?_, ?_, ?_, ?_⟩
  · exact hashLength.trans uses.hashLength
  · exact version.trans uses.version
  · rw [slots]
    rfl
  · rw [slots]
    exact large

theorem staged_uses (sealed : Sealed T st rs) (small : Small st rs) (lawful : c.Lawful st.setup)
    (some_bytes : 0 < st.f.length) {n p : Nat} (few : n ≤ rs.length + 1) (next : NextPrime.Next (n * 2 + 5) p) :
    p ≤ 2 ^ 31 - 1 ∧ ∃ T' : Layout, T'.size = p ∧ T'.hashLength = T.hashLength ∧
      (st.setup.staged c p (int st.f.length)).Uses T' := by
  obtain ⟨q, near, bound⟩ := NextPrime.exists_next (n * 2 + 5)
  have close : p ≤ 2 * (n * 2 + 5) + 2 := Nat.le_trans (next.least q near.prime near.from_) bound
  have from_ := next.from_
  have uses := sealed.uses
  have wide : (p + 1) * (T.hashLength + 8) ≤ (4 * rs.length + 17) * (T.hashLength + 8) :=
    Nat.mul_le_mul_right _ (by omega)
  have table := small.map
  rw [← uses.hashLength] at table
  have long := Nat.le_mul_of_pos_right (p + 1) (show 0 < T.hashLength + 8 by omega)
  refine ⟨by omega, ⟨T.hashLength, p, T.version, next.prime, T.long, T.int, by omega⟩, rfl, rfl, ?_⟩
  have fits := small.f
  rw [← small.blocksz (c := c) some_bytes p] at fits
  have large : 2 < p := by omega
  exact uses.staged lawful fits rfl rfl rfl large

/-! ### The bytes of the records -/

def bytesFor (rs : List Reserved) (hash : Bytes) : Nat := ((recordOf rs hash).map fun r => r.bytes.length).getD 0

theorem bytesFor_record (single : (rs.map Reserved.hash).Nodup) (member : r ∈ rs) :
    bytesFor rs r.hash = r.bytes.length := by
  rw [bytesFor, (recordOf_some single).mpr ⟨member, rfl⟩]
  rfl

theorem bytesOf_eq (single : (rs.map Reserved.hash).Nodup) : bytesOf rs = ((rs.map Reserved.hash).map (bytesFor rs)).sum := by
  rw [bytesOf, List.map_map]
  exact congrArg List.sum (List.map_congr_left fun r member => (bytesFor_record single member).symm)

theorem bytesOf_copies {hashes : List Bytes} (sealed : Sealed T st rs) (lawful : c.Lawful st.setup) {size : Nat} {bsz : Int}
    (copied : Copied rs hashes done) (placed : ∀ r ∈ done, Placed (st.setup.staged c size bsz) r) :
    bytesOf done = ((done.map Reserved.hash).map (bytesFor rs)).sum := by
  rw [bytesOf, List.map_map]
  refine congrArg List.sum (List.map_congr_left fun r member => ?_)
  have chunk := copied.chunks r member
  obtain ⟨r', there, same⟩ := Option.map_eq_some_iff.mp (show (recordOf rs r.hash).map Reserved.chunk = some r.chunk from chunk)
  obtain ⟨member', own⟩ := (recordOf_some sealed.single).mp there
  rw [Function.comp_apply, ← own, bytesFor_record sealed.single member', Reserved.length_bytes, Reserved.length_bytes, own,
    (placed r member).stored, (sealed.placed r' member').stored, length_encode_staged lawful, same]

theorem sum_bytesFor_le (sealed : Sealed T st rs) {hashes : List Bytes} (single : hashes.Nodup)
    (some_of : ∀ hash ∈ hashes, hash ∈ rs.map Reserved.hash) :
    hashes.length ≤ rs.length ∧ (hashes.map (bytesFor rs)).sum ≤ bytesOf rs := by
  obtain ⟨l, perm, sublist⟩ := single.subperm some_of
  constructor
  · rw [← perm.length_eq, ← List.length_map Reserved.hash]
    exact sublist.length_le
  · rw [bytesOf_eq sealed.single, ← (perm.map (bytesFor rs)).sum_eq]
    exact (sublist.map (bytesFor rs)).sum_le_sum fun _ _ => Nat.zero_le _

/-! ### Moving the files -/

/-- The records are moved, and the file of the map cannot be. The next call of `moveFile` finds no records. -/
def Outside.Splits (c : Outside) : Prop := ∃ i < 5, (∀ j < i, c.moves j = .fileFails) ∧ c.moves i = .mapFails

theorem moveFiles_moved (moves : Nat → Move) (n i : Nat) (disk : Stored) :
    (moveFiles moves n i ⟨none, disk⟩).1.disk = disk := by
  cases n with
  | zero => rfl
  | succ n => rfl

/-- The files are those of the old archive, and nothing has worked, or those of the new one, or some of each. -/
theorem moveFiles_cases (moves : Nat → Move) (n i : Nat) (har disk : Stored) :
    ((moveFiles moves n i ⟨some har, disk⟩).1.disk = disk ∧ (moveFiles moves n i ⟨some har, disk⟩).2 = false) ∨
      (moveFiles moves n i ⟨some har, disk⟩).1.disk = har ∨
      ∃ k < n, (∀ j < k, moves (i + j) = .fileFails) ∧ moves (i + k) = .mapFails := by
  induction n generalizing i with
  | zero => exact .inl ⟨rfl, rfl⟩
  | succ n ih =>
    rw [moveFiles]
    cases move : moves i with
    | works => exact .inr (.inl rfl)
    | copyFails => exact .inr (.inl (moveFiles_moved moves n (i + 1) har))
    | mapFails => exact .inr (.inr ⟨0, Nat.succ_pos n, fun j less => absurd less (Nat.not_lt_zero j), move⟩)
    | fileFails =>
      dsimp only [moveFile]
      rcases ih (i + 1) with same | moved | ⟨k, less, before, last⟩
      · exact .inl same
      · exact .inr (.inl moved)
      · refine .inr (.inr ⟨k + 1, Nat.succ_lt_succ less, fun j below => ?_, ?_⟩)
        · cases j with
          | zero => exact move
          | succ j =>
            rw [show i + (j + 1) = i + 1 + j by omega]
            exact before j (Nat.lt_of_succ_lt_succ below)
        · rw [show i + (k + 1) = i + 1 + k by omega]
          exact last

/-! ### What is there after a compaction -/

structure Compacted (T : Layout) (rs : List Reserved) (hashes : List Bytes) (st' : Stored) (T' : Layout) (done : List Reserved) :
    Prop where
  stored : Sealed T' st' done
  small : Small st' done
  hashLength : T'.hashLength = T.hashLength
  chunks : ∀ hash, chunkOf done hash = if hash ∈ hashes then chunkOf rs hash else none

theorem Sealed.longer (sealed : Sealed T st rs) (member : r ∈ rs) : st.setup.offset < st.f.length := by
  have bytes := r.length_bytes
  have part := List.single_le_sum (fun _ _ => Nat.zero_le _) _
    (List.mem_map_of_mem (f := fun r : Reserved => r.bytes.length) member)
  have length := sealed.length
  unfold bytesOf at length
  omega

theorem Sealed.some_bytes (sealed : Sealed T st rs) (member : r ∈ rs) : 0 < st.f.length :=
  Nat.lt_of_le_of_lt (Nat.zero_le _) (sealed.longer member)

theorem copyChunks_compacted (sealed : Sealed T st rs) (small : Small st rs) (lawful : c.Lawful st.setup)
    {ar : List (Bytes × Int)} (listed : ∀ e ∈ ar, e.1 ∈ rs.map Reserved.hash) (few : ar.length ≤ rs.length + 1)
    (some_live : ar ≠ []) {p : Nat} (next : NextPrime.Next (ar.length * 2 + 5) p)
    (ends : copyChunks site st c (st.setup.staged c p (int st.f.length)) ar (.new (st.setup.staged c p (int st.f.length)) p) =
      .ok w) :
    ∃ T' done, Compacted T rs (ar.map Prod.fst) ⟨st.setup.staged c p (int st.f.length), w.f, w.map.kFC⟩ T' done := by
  obtain ⟨e, member⟩ := List.exists_mem_of_ne_nil _ some_live
  obtain ⟨r, inside, -⟩ := List.mem_map.mp (listed e member)
  have some_bytes := sealed.some_bytes inside
  obtain ⟨-, T', rfl, hashLength, uses⟩ := staged_uses sealed small lawful some_bytes few next
  obtain ⟨done, writing, copied⟩ := copyChunks_writing sealed uses hashLength
    (fun r member => (sealed.placed r member).call.staged lawful _ _) listed .new (.nil rs) ends
  have stored := writing.stored uses
  have single := stored.single
  have known : ∀ hash ∈ done.map Reserved.hash, hash ∈ rs.map Reserved.hash := by
    intro hash inside
    obtain ⟨e, there, rfl⟩ := List.mem_map.mp ((copied.hashes hash).mp inside)
    exact listed e there
  obtain ⟨fewer, shorter⟩ := sum_bytesFor_le sealed single known
  rw [← bytesOf_copies sealed lawful copied stored.placed] at shorter
  rw [List.length_map] at fewer
  refine ⟨T', done, stored, ⟨?_, ?_⟩, hashLength, fun hash => ?_⟩
  · have length := stored.length
    have before := sealed.length
    have file := small.f
    rw [staged_offset] at length
    rw [staged_hashLength]
    omega
  · rw [staged_hashLength]
    have wide := Nat.mul_le_mul_right (st.setup.hashLength + 8) (show 4 * done.length + 17 ≤ 4 * rs.length + 17 by omega)
    exact Nat.lt_of_le_of_lt (Nat.add_le_add_right wide 16) small.map
  · rw [copied.chunkOf single hash, List.nil_append]

theorem error_ne_ok {e : PutError} (n : Int) : (.error e : Except PutError Int) ≠ .ok n := by
  intro same
  cases same

theorem Compacted.longer {st' : Stored} {T' : Layout} {ar : List (Bytes × Int)}
    (compacted : Compacted T rs (ar.map Prod.fst) st' T' done) (sealed : Sealed T st rs)
    (listed : ∀ e ∈ ar, e.1 ∈ rs.map Reserved.hash) (some_live : ar ≠ []) : st'.setup.offset < st'.f.length := by
  obtain ⟨e, member⟩ := List.exists_mem_of_ne_nil _ some_live
  obtain ⟨r, inside, same⟩ := List.mem_map.mp (listed e member)
  have copied : chunkOf done r.hash = some r.chunk := by
    rw [compacted.chunks, if_pos (List.mem_map.mpr ⟨e, member, same.symm⟩)]
    exact (sealed.read_record ⟨0, SimpleByteArrayLongMap.inOrder⟩ inside).2
  obtain ⟨r', record, -⟩ := Option.map_eq_some_iff.mp copied
  exact compacted.stored.longer ((recordOf_some compacted.stored.single).mp record).1

theorem compactRest_cases (site : Site) (sealed : Sealed T st rs) (small : Small st rs) (lawful : c.Lawful st.setup)
    (whole : ¬ c.Splits) {ar : List (Bytes × Int)} (listed : ∀ e ∈ ar, e.1 ∈ rs.map Reserved.hash)
    (few : ar.length ≤ rs.length + 1) :
    ((compactRest site st c ar).1 = some st ∧ ∀ n, (compactRest site st c ar).2 ≠ .ok n) ∨
    ((compactRest site st c ar).1 = none ∧ ar = []) ∨
    ∃ st' T' done, (compactRest site st c ar).1 = some st' ∧ Compacted T rs (ar.map Prod.fst) st' T' done := by
  unfold compactRest
  dsimp only
  split
  · rename_i none_live
    exact .inr (.inl ⟨rfl, none_live⟩)
  · rename_i some_live
    obtain ⟨p, next, -⟩ := NextPrime.exists_next (ar.length * 2 + 5)
    rw [NextPrime.getNextPrimeI_next next]
    by_cases large : 2 ^ 31 - 1 < p
    · rw [if_pos large]
      exact .inl ⟨rfl, error_ne_ok⟩
    rw [if_neg large]
    dsimp only
    cases ends : copyChunks site st c (st.setup.staged c p (int st.f.length)) ar
        (.new (st.setup.staged c p (int st.f.length)) p) with
    | error e => exact .inl ⟨rfl, error_ne_ok⟩
    | ok w =>
      dsimp only
      obtain ⟨T', done, compacted⟩ := copyChunks_compacted sealed small lawful listed few some_live next ends
      rw [if_pos (compacted.longer sealed listed some_live)]
      have moved := moveFiles_cases c.moves 5 0 ⟨st.setup.staged c p (int st.f.length), w.f, w.map.kFC⟩ st
      simp only [Nat.zero_add] at moved
      cases result : moveFiles c.moves 5 0 ⟨some ⟨st.setup.staged c p (int st.f.length), w.f, w.map.kFC⟩, st⟩ with
      | mk m works =>
        rw [result] at moved
        rcases moved with ⟨same, fails⟩ | new | split
        · obtain rfl : works = false := fails
          exact .inl ⟨congrArg some same, error_ne_ok⟩
        · cases works <;> exact .inr (.inr ⟨_, T', done, congrArg some new, compacted⟩)
        · exact absurd split whole

theorem listed_records {l last : List (Bytes × Int)} (perm : (l.map Prod.fst).Perm (rs.map Reserved.hash))
    (few : last.length ≤ 1) (again : ∀ e ∈ last, e ∈ l) :
    (∀ e ∈ l ++ last, e.1 ∈ rs.map Reserved.hash) ∧ (l ++ last).length ≤ rs.length + 1 := by
  constructor
  · intro e member
    rcases List.mem_append.mp member with first | second
    · exact perm.mem_iff.mp (List.mem_map_of_mem first)
    · exact perm.mem_iff.mp (List.mem_map_of_mem (again e second))
  · have all := perm.length_eq
    rw [List.length_map, List.length_map] at all
    rw [List.length_append]
    omega

/-- A compaction leaves the files as they are, or deletes those that nothing is needed of, or replaces them. -/
theorem compact_cases (site : Site) (sealed : Sealed T st rs) (small : Small st rs) (lawful : c.Lawful st.setup) (whole : ¬ c.Splits) :
    (compact site st c).1 = some st ∨
    ((compact site st c).1 = none ∧ ∀ r ∈ rs, c.live r.hash ≠ true) ∨
    ∃ st' T' done hashes, (compact site st c).1 = some st' ∧ Compacted T rs hashes st' T' done ∧
      ∀ r ∈ rs, r.hash ∈ hashes ↔ c.live r.hash = true := by
  obtain ⟨l, last, t, listed, perm, few, again, -⟩ := sealed.listed site
  obtain ⟨records, number⟩ := listed_records perm few again
  have needed : ∀ r ∈ rs, r.hash ∈ ((l ++ last).filter fun p => c.live p.1).map Prod.fst ↔ c.live r.hash = true := by
    intro r member
    rw [List.mem_map]
    constructor
    · rintro ⟨e, there, same⟩
      rw [← same]
      exact (List.mem_filter.mp there).2
    · intro live
      obtain ⟨e, inside, same⟩ := List.mem_map.mp (perm.mem_iff.mpr (List.mem_map_of_mem member))
      exact ⟨e, List.mem_filter.mpr ⟨List.mem_append_left _ inside, by rw [same]; exact live⟩, same⟩
  unfold compact
  split
  · exact .inl rfl
  · rw [listed]
    have inside : ∀ e ∈ (l ++ last).filter fun p => c.live p.1, e.1 ∈ rs.map Reserved.hash :=
      fun e member => records e (List.mem_of_mem_filter member)
    rcases compactRest_cases site sealed small lawful whole inside ((List.length_filter_le _ _).trans number) with
      ⟨same, -⟩ | ⟨gone, none_live⟩ | ⟨st', T', done, new, compacted⟩
    · exact .inl same
    · refine .inr (.inl ⟨gone, fun r member live => ?_⟩)
      have kept := (needed r member).mpr live
      rw [none_live] at kept
      cases kept
    · exact .inr (.inr ⟨st', T', done, _, new, compacted, needed⟩)

/-! ### Every life of an archive -/

/-- The runs of an archive whose hashes have `n` bytes: its files, what was put, and the hashes that every compaction
needed. A compaction may fail in any place but between the two files. -/
inductive Life (site : Site) (n : Nat) : Option Stored → (Bytes → Option Bytes) → (Bytes → Prop) → Prop
  | written {a : Archive} {T : Layout} {w : Writer} {rs : List Reserved} : a.Uses T → a.hashLength = n →
      Writing a T ⟨w, [], rs⟩ → Small ⟨a, w.f, w.map.kFC⟩ rs →
      Life site n (some ⟨a, w.f, w.map.kFC⟩) (chunkOf rs) fun _ => True
  | compacted {st : Stored} {put : Bytes → Option Bytes} {needed : Bytes → Prop} {c : Outside} :
      Life site n (some st) put needed → c.Lawful st.setup → ¬ c.Splits →
      Life site n (compact site st c).1 put fun hash => needed hash ∧ c.live hash = true

structure Holds (n : Nat) (st : Stored) (put : Bytes → Option Bytes) (needed : Bytes → Prop) (T : Layout)
    (rs : List Reserved) : Prop where
  stored : Sealed T st rs
  small : Small st rs
  hashLength : T.hashLength = n
  needed : ∀ hash, needed hash → chunkOf rs hash = put hash
  only : ∀ hash chunk, chunkOf rs hash = some chunk → put hash = some chunk

theorem life_holds {n : Nat} {disk : Option Stored} {put : Bytes → Option Bytes} {needed : Bytes → Prop}
    (life : Life site n disk put needed) :
    (∀ st, disk = some st → ∃ T rs, Holds n st put needed T rs) ∧ (disk = none → ∀ hash, needed hash → put hash = none) := by
  induction life with
  | written uses hashLength writing small =>
    refine ⟨fun st here => ?_, fun gone => nomatch gone⟩
    obtain rfl := Option.some.inj here
    exact ⟨_, _, writing.stored uses, small, uses.hashLength.trans hashLength, fun _ _ => rfl, fun _ _ => id⟩
  | @compacted st put needed c _ lawful whole ih =>
    obtain ⟨T, rs, holds⟩ := ih.1 st rfl
    rcases compact_cases site holds.stored holds.small lawful whole with
      same | ⟨gone, none_live⟩ | ⟨st', T', done, hashes, new, compacted, kept⟩
    · rw [same]
      refine ⟨fun st' here => ?_, fun gone => nomatch gone⟩
      obtain rfl := Option.some.inj here
      exact ⟨T, rs, { holds with needed := fun hash both => holds.needed hash both.1 }⟩
    · rw [gone]
      refine ⟨fun st' here => (nomatch here), fun _ hash both => ?_⟩
      rw [← holds.needed hash both.1]
      refine chunkOf_none fun there => ?_
      obtain ⟨r, member, rfl⟩ := List.mem_map.mp there
      exact none_live r member both.2
    · rw [new]
      refine ⟨fun st'' here => ?_, fun gone => nomatch gone⟩
      obtain rfl := Option.some.inj here
      refine ⟨T', done, compacted.stored, compacted.small, compacted.hashLength.trans holds.hashLength, ?_, ?_⟩
      · rintro hash ⟨before, live⟩
        rw [← holds.needed hash before, compacted.chunks]
        split
        · rfl
        · rename_i unneeded
          refine (chunkOf_none fun there => ?_).symm
          obtain ⟨r, member, rfl⟩ := List.mem_map.mp there
          exact unneeded ((kept r member).mpr live)
      · intro hash chunk there
        rw [compacted.chunks] at there
        split at there
        · exact holds.only hash chunk there
        · cases there

def localArchive : Archive := { smallArchive 1 with localData := true, hashLength := 32, wMaxSz := 3 }

def localFile : Layout := SimpleByteArrayLongMap.smallFile

theorem localArchive_uses : localArchive.Uses localFile := by
  refine ⟨⟨fun _ => rfl, fun _ => rfl, fun _ => List.cons_ne_nil _ _, ?_⟩, rfl, rfl, rfl, rfl, by decide⟩
  show 1024 * 1024 + 4 + 32 < 2 ^ 31
  decide

def firstRecord : Reserved := ⟨SimpleByteArrayLongMap.oneKey, [3, 4, 5], [255, 255, 255, 255, 3, 4, 5], 1024⟩

def secondRecord : Reserved := ⟨SimpleByteArrayLongMap.otherKey, [6, 7], [255, 255, 255, 255, 6, 7], 1071⟩

def twoReserved : Writers :=
  ((⟨.new localArchive 5, [], []⟩ : Writers).reserve localArchive firstRecord.hash firstRecord.chunk alone).reserve
    localArchive secondRecord.hash secondRecord.chunk alone

theorem twoReserved_waiting : twoReserved.waiting = [secondRecord, firstRecord] ∧ twoReserved.returned = [] := by
  decide +kernel

def twoWritten : Writer := (twoReserved.writer.writeRecord firstRecord).writeRecord secondRecord

theorem writing_twoWritten : Writing localArchive localFile ⟨twoWritten, [], [secondRecord, firstRecord]⟩ := by
  obtain ⟨waiting, returned⟩ := twoReserved_waiting
  have key : ∀ {hash : Bytes}, hash.length = 32 → hash ≠ zeros 32 → IsKey localFile hash := fun length other => ⟨length, other⟩
  have reserved : Writing localArchive localFile twoReserved := by
    refine .reserve (.reserve .new ?_ (key (by decide) (by decide))) ?_ (key (by decide) (by decide))
    · exact ⟨by decide, by decide, by decide, by decide⟩
    · exact ⟨by decide, by decide, by decide, by decide⟩
  have first := reserved.write (r := firstRecord) (by rw [waiting]; decide)
  have second := first.write (r := secondRecord) (by
    show secondRecord ∈ twoReserved.waiting.erase firstRecord
    rw [waiting]
    decide)
  rw [Writers.write, Writers.write, waiting, returned] at second
  exact second

def localStored : Stored := ⟨localArchive, twoWritten.f, twoWritten.map.kFC⟩

theorem small_localStored : Small localStored [secondRecord, firstRecord] := by
  constructor
  · decide +kernel
  · decide

def firstNeeded : Outside where
  disableWrite := false
  mapped := false
  live hash := decide (hash = firstRecord.hash)
  broken _ := false
  moves i := if i = 0 then .fileFails else .works
  id := 12
  iv := List.replicate 16 9
  encryptCBC b := 16 :: b
  decryptCBC b := some b.tail
  nextSize := 1024

theorem firstNeeded_lawful : firstNeeded.Lawful localArchive := ⟨fun _ => rfl, fun _ => List.cons_ne_nil _ _, fun _ => rfl⟩

theorem firstNeeded_whole : ¬ firstNeeded.Splits := by
  rintro ⟨i, -, -, failed⟩
  cases i with
  | zero => cases failed
  | succ i => cases failed

def localSite : Site := ⟨5, SimpleByteArrayLongMap.inOrder⟩

end EncryptedDedup.SDFS.HashBlobArchive
