import EncryptedDedup.SDFS.Compaction

/-!
# What a compaction returns

A compaction that meets no fault fails only if there is nothing to be gained and its iteration repeats a record.
-/

namespace EncryptedDedup.SDFS.HashBlobArchive
open SimpleByteArrayLongMap (Layout)

variable {a : Archive} {T T' : Layout} {site : Site} {st : Stored} {rs done : List Reserved} {w w' : Writer} {r : Reserved}
  {hash chunk : Bytes} {c : Outside}

theorem copyChunks_append (xs ys : List (Bytes × Int)) (w : Writer) :
    copyChunks site st c a (xs ++ ys) w = (copyChunks site st c a xs w).bind (copyChunks site st c a ys) := by
  induction xs generalizing w with
  | nil => rfl
  | cons e xs ih =>
    obtain ⟨key, value⟩ := e
    rw [List.cons_append, copyChunks, copyChunks]
    split
    · rfl
    · split
      · rfl
      · split
        · exact ih _
        · exact ih _
        · rfl

theorem Copied.perm {hashes : List Bytes} (copied : Copied rs hashes done) (single : (done.map Reserved.hash).Nodup)
    (distinct : hashes.Nodup) : (done.map Reserved.hash).Perm hashes :=
  (List.perm_ext_iff_of_nodup single distinct).mpr copied.hashes

theorem bytesOf_copies_lt (sealed : Sealed T st rs) (lawful : c.Lawful st.setup) {hashes : List Bytes} {size : Nat}
    {bsz : Int} (copied : Copied rs hashes done) (placed : ∀ r ∈ done, Placed (st.setup.staged c size bsz) r)
    (single : (done.map Reserved.hash).Nodup) (known : ∀ hash ∈ hashes, hash ∈ rs.map Reserved.hash) (member : r ∈ rs)
    (fresh : r.hash ∉ hashes) : bytesOf done < bytesOf rs := by
  have more : (r.hash :: done.map Reserved.hash).Nodup :=
    List.nodup_cons.mpr ⟨fun there => fresh ((copied.hashes _).mp there), single⟩
  obtain ⟨-, most⟩ := sum_bytesFor_le sealed more fun hash there => by
    rcases List.mem_cons.mp there with rfl | earlier
    · exact List.mem_map_of_mem member
    · exact known hash ((copied.hashes hash).mp earlier)
  have bytes := r.length_bytes
  rw [List.map_cons, List.sum_cons, bytesFor_record sealed.single member, ← bytesOf_copies sealed lawful copied placed] at most
  omega

theorem copyChunks_distinct (site : Site) (sealed : Sealed T st rs) (lawful : c.Lawful st.setup) {size : Nat} {bsz : Int}
    (uses : (st.setup.staged c size bsz).Uses T') (same : T'.hashLength = T.hashLength)
    (opens : st.setup.Opens c.id) (blocksz : (st.setup.staged c size bsz).blocksz = st.f.length) {n : Nat}
    (slots : n * 2 + 5 ≤ T'.size)
    (unbroken : ∀ r ∈ rs, c.broken r.hash = false) {ar : List (Bytes × Int)}
    (listed : ∀ e ∈ ar, e.1 ∈ rs.map Reserved.hash) {hashes : List Bytes}
    (known : ∀ hash ∈ hashes, hash ∈ rs.map Reserved.hash) (distinct : (hashes ++ ar.map Prod.fst).Nodup)
    (few : (hashes ++ ar.map Prod.fst).length ≤ n) (writing : Writing (st.setup.staged c size bsz) T' ⟨w, [], done⟩)
    (writeable : w.writeable = true) (copied : Copied rs hashes done) :
    ∃ w' done', copyChunks site st c (st.setup.staged c size bsz) ar w = .ok w' ∧ w'.writeable = true ∧
      Writing (st.setup.staged c size bsz) T' ⟨w', [], done'⟩ ∧ Copied rs (hashes ++ ar.map Prod.fst) done' := by
  induction ar generalizing w done hashes with
  | nil => exact ⟨w, done, rfl, writeable, writing, by rwa [List.map_nil, List.append_nil]⟩
  | cons e ar ih =>
    obtain ⟨key, value⟩ := e
    obtain ⟨r, member, rfl⟩ := List.mem_map.mp (listed (key, value) List.mem_cons_self)
    obtain ⟨read, chunk⟩ := sealed.read_record site member
    have whole : hashes ++ ((r.hash, value) :: ar).map Prod.fst = (hashes ++ [r.hash]) ++ ar.map Prod.fst := by
      rw [List.map_cons, List.append_assoc, List.singleton_append]
    rw [whole] at distinct few ⊢
    have first := (List.nodup_append.mp distinct).1
    have fresh : r.hash ∉ hashes := fun there =>
      (List.nodup_append.mp first).2.2 _ there _ (List.mem_singleton_self _) rfl
    obtain ⟨np, size', single⟩ := writing.counted uses
    have room : Room (st.setup.staged c size bsz) w := by
      refine ⟨writeable, ?_, ?_⟩
      · have less := bytesOf_copies_lt sealed lawful copied (writing.stored uses).placed single known member fresh
        have length := sealed.length
        rw [staged_offset] at np
        rw [blocksz, np]
        omega
      · have number := (copied.perm single (List.nodup_append.mp first).1).length_eq
        rw [List.length_map] at number
        rw [List.length_append, List.length_append, List.length_singleton] at few
        rw [uses.wMaxSz, size']
        omega
    rw [copyChunks, unbroken r member, if_neg Bool.false_ne_true, read]
    dsimp only
    rw [found_alone (staged_opens.mpr opens)]
    rcases putChunk_cases uses writing ((sealed.placed r member).call.staged lawful size bsz)
        (isKey_congr same (sealed.plain r member)) with
      ⟨full, -⟩ | ⟨-, there, -⟩ | ⟨-, -, w₁, r', put, hash, chunk', writeable', writing'⟩
    · exact absurd room full
    · exact absurd ((copied.hashes _).mp there) fresh
    · rw [put]
      dsimp only
      rw [← hash]
      refine ih (fun e inside => listed e (List.mem_cons_of_mem _ inside)) ?_ ?_ ?_ writing' writeable'
        (copied.put (by rw [hash, chunk', chunk]))
      · intro h there
        rcases List.mem_append.mp there with before | here
        · exact known h before
        · rw [List.mem_singleton.mp here, hash]
          exact List.mem_map_of_mem member
      · rw [hash]
        exact distinct
      · rw [hash]
        exact few

/-! ### The records that are needed -/

/-- The records that a compaction copies, and those that it leaves out. -/
def Outside.needed (c : Outside) (rs : List Reserved) : List Reserved := rs.filter fun r => c.live r.hash

def Outside.dropped (c : Outside) (rs : List Reserved) : List Reserved := rs.filter fun r => !c.live r.hash

theorem bytesOf_append (rs rs' : List Reserved) : bytesOf (rs ++ rs') = bytesOf rs + bytesOf rs' := by
  rw [bytesOf, List.map_append, List.sum_append, bytesOf, bytesOf]

theorem bytesOf_parts (c : Outside) (rs : List Reserved) : bytesOf (c.needed rs) + bytesOf (c.dropped rs) = bytesOf rs := by
  rw [← bytesOf_append]
  exact bytesOf_perm (List.filter_append_perm (fun r : Reserved => c.live r.hash) rs)

theorem bytesOf_dropped (c : Outside) (rs : List Reserved) : bytesOf (c.dropped rs) = 0 ↔ ∀ r ∈ rs, c.live r.hash = true := by
  constructor
  · intro nothing r member
    by_contra dead
    have inside : r ∈ c.dropped rs := List.mem_filter.mpr ⟨member, by rw [Bool.eq_false_iff.mpr dead]; rfl⟩
    have part := List.single_le_sum (fun _ _ => Nat.zero_le _) _
      (List.mem_map_of_mem (f := fun r : Reserved => r.bytes.length) inside)
    have bytes := r.length_bytes
    unfold bytesOf at nothing
    omega
  · intro all
    have none_dropped : c.dropped rs = [] := by
      refine List.filter_eq_nil_iff.mpr fun r member => ?_
      rw [all r member]
      decide
    rw [none_dropped, bytesOf_nil]

theorem bytesOf_needed (sealed : Sealed T st rs) (lawful : c.Lawful st.setup) {size : Nat} {bsz : Int}
    {l : List (Bytes × Int)} (perm : (l.map Prod.fst).Perm (rs.map Reserved.hash))
    (copied : Copied rs ((l.filter fun p => c.live p.1).map Prod.fst) done)
    (placed : ∀ r ∈ done, Placed (st.setup.staged c size bsz) r) (single : (done.map Reserved.hash).Nodup) :
    bytesOf done = bytesOf (c.needed rs) := by
  have keys : ((l.filter fun p => c.live p.1).map Prod.fst).Perm ((c.needed rs).map Reserved.hash) := by
    have filtered := perm.filter fun hash => c.live hash
    rwa [List.filter_map, List.filter_map] at filtered
  have part : (c.needed rs).Sublist rs := List.filter_sublist
  have distinct : ((c.needed rs).map Reserved.hash).Nodup := sealed.single.sublist (part.map Reserved.hash)
  rw [bytesOf_copies sealed lawful copied placed,
    (((copied.perm single (keys.nodup_iff.mpr distinct)).trans keys).map (bytesFor rs)).sum_eq, bytesOf, List.map_map]
  refine congrArg List.sum (List.map_congr_left fun r member => ?_)
  exact bytesFor_record sealed.single (part.subset member)

/-- A record that is copied already is passed over if there is room for a record, and fails the compaction if not. -/
theorem copyChunks_again (site : Site) (sealed : Sealed T st rs) (lawful : c.Lawful st.setup) {size : Nat} {bsz : Int}
    (uses : (st.setup.staged c size bsz).Uses T') (same : T'.hashLength = T.hashLength) (opens : st.setup.Opens c.id)
    (unbroken : ∀ r ∈ rs, c.broken r.hash = false) (writing : Writing (st.setup.staged c size bsz) T' ⟨w, [], done⟩)
    (writeable : w.writeable = true) (member : r ∈ rs) (known : r.hash ∈ done.map Reserved.hash) (value : Int) :
    (Room (st.setup.staged c size bsz) w →
      copyChunks site st c (st.setup.staged c size bsz) [(r.hash, value)] w = .ok w) ∧
    (¬ Room (st.setup.staged c size bsz) w →
      copyChunks site st c (st.setup.staged c size bsz) [(r.hash, value)] w = .error .archiveFull) := by
  obtain ⟨read, chunk⟩ := sealed.read_record site member
  rw [copyChunks, unbroken r member, if_neg Bool.false_ne_true, read]
  dsimp only
  rw [found_alone (staged_opens.mpr opens)]
  rcases putChunk_cases uses writing ((sealed.placed r member).call.staged lawful size bsz)
      (isKey_congr same (sealed.plain r member)) with
    ⟨full, w₁, e, put, other, kind⟩ | ⟨room, -, put⟩ | ⟨-, fresh, -⟩
  · rw [put, kind writeable]
    exact ⟨fun room => absurd room full, fun _ => rfl⟩
  · rw [put]
    exact ⟨fun _ => rfl, fun full => absurd room full⟩
  · exact absurd known fresh

theorem copyChunks_result (site : Site) (sealed : Sealed T st rs) (small : Small st rs) (lawful : c.Lawful st.setup)
    (opens : st.setup.Opens c.id) (unbroken : ∀ r ∈ rs, c.broken r.hash = false) {l last : List (Bytes × Int)}
    (perm : (l.map Prod.fst).Perm (rs.map Reserved.hash)) (few : last.length ≤ 1) (again : ∀ e ∈ last, e ∈ l)
    (some_live : (l ++ last).filter (fun p => c.live p.1) ≠ []) {p : Nat}
    (next : NextPrime.Next (((l ++ last).filter fun p => c.live p.1).length * 2 + 5) p) :
    ((∀ r ∈ rs, c.live r.hash = true) ∧ last ≠ [] →
      copyChunks site st c (st.setup.staged c p (int st.f.length)) ((l ++ last).filter fun p => c.live p.1)
        (.new (st.setup.staged c p (int st.f.length)) p) = .error .archiveFull) ∧
    (¬ ((∀ r ∈ rs, c.live r.hash = true) ∧ last ≠ []) → ∃ w,
      copyChunks site st c (st.setup.staged c p (int st.f.length)) ((l ++ last).filter fun p => c.live p.1)
        (.new (st.setup.staged c p (int st.f.length)) p) = .ok w ∧
      w.f.length = st.setup.offset + bytesOf (c.needed rs)) := by
  obtain ⟨listed, count⟩ := listed_records perm few again
  obtain ⟨e, member⟩ := List.exists_mem_of_ne_nil _ some_live
  obtain ⟨r, inside, -⟩ := List.mem_map.mp (listed e (List.mem_of_mem_filter member))
  have some_bytes := sealed.some_bytes inside
  obtain ⟨-, T', rfl, hashLength, uses⟩ := staged_uses sealed small lawful some_bytes
    ((List.length_filter_le _ _).trans count) next
  have blocksz := small.blocksz (c := c) some_bytes T'.size
  have distinct : ((l.filter fun p => c.live p.1).map Prod.fst).Nodup :=
    (perm.nodup_iff.mpr sealed.single).sublist (List.filter_sublist.map Prod.fst)
  have known : ∀ e ∈ l.filter (fun p => c.live p.1), e.1 ∈ rs.map Reserved.hash := fun e inside =>
    perm.mem_iff.mp (List.mem_map_of_mem (List.mem_filter.mp inside).1)
  have number : (l.filter fun p => c.live p.1).length ≤ ((l ++ last).filter fun p => c.live p.1).length := by
    rw [List.filter_append, List.length_append]
    exact Nat.le_add_right _ _
  obtain ⟨w, done, first, writeable, writing, copied⟩ := copyChunks_distinct site sealed lawful uses hashLength
    opens blocksz next.from_ unbroken known (fun _ none_yet => absurd none_yet List.not_mem_nil)
    (by rwa [List.nil_append]) (by rwa [List.nil_append, List.length_map]) .new rfl (.nil rs)
  rw [List.nil_append] at copied
  obtain ⟨np, size, single⟩ := writing.counted uses
  have stored := writing.stored uses
  have bytes := bytesOf_needed sealed lawful perm copied stored.placed single
  have parts := bytesOf_parts c rs
  have length : w.f.length = _ := stored.length
  rw [staged_offset, bytes] at length
  have whole := sealed.length
  -- The file has room as long as a record is left out.
  have room : Room (st.setup.staged c T'.size (int st.f.length)) w ↔ ¬ ∀ r ∈ rs, c.live r.hash = true := by
    rw [← bytesOf_dropped c rs]
    rw [staged_offset, bytes] at np
    refine ⟨fun room nothing => ?_, fun more => ⟨writeable, ?_, ?_⟩⟩
    · have less := room.np
      rw [blocksz] at less
      omega
    · rw [blocksz]
      omega
    · have size' := (copied.perm single distinct).length_eq
      have slots := next.from_
      rw [List.length_map, List.length_map] at size'
      rw [uses.wMaxSz, size]
      omega
  rw [List.filter_append, copyChunks_append, first]
  cases last with
  | nil => exact ⟨fun both => absurd rfl both.2, fun _ => ⟨w, rfl, length⟩⟩
  | cons e rest =>
    obtain rfl : rest = [] := List.eq_nil_of_length_eq_zero (by rw [List.length_cons] at few; omega)
    obtain ⟨r', member', same⟩ := List.mem_map.mp
      (perm.mem_iff.mp (List.mem_map_of_mem (f := Prod.fst) (again e List.mem_cons_self)))
    by_cases live : c.live e.1 = true
    · have copy : r'.hash ∈ done.map Reserved.hash := by
        rw [same]
        refine (copied.hashes _).mpr (List.mem_map_of_mem (List.mem_filter.mpr ⟨again e List.mem_cons_self, live⟩))
      have alone : [e].filter (fun p => c.live p.1) = [(r'.hash, e.2)] := by
        rw [List.filter_cons_of_pos (p := fun p : Bytes × Int => c.live p.1) live, List.filter_nil, same]
      obtain ⟨passes, fails⟩ := copyChunks_again site sealed lawful uses hashLength opens unbroken writing writeable
        member' copy e.2
      rw [alone]
      constructor
      · exact fun both => fails fun there => room.mp there both.1
      · exact fun not_both => ⟨w, passes (room.mpr fun all => not_both ⟨all, List.cons_ne_nil _ _⟩), length⟩
    · have nothing : [e].filter (fun p => c.live p.1) = [] :=
        List.filter_cons_of_neg (p := fun p : Bytes × Int => c.live p.1) live
      rw [nothing]
      refine ⟨fun both => absurd (both.1 r' member') (by rw [same]; exact live), fun _ => ⟨w, rfl, length⟩⟩

theorem staged_room (sealed : Sealed T st rs) (small : Small st rs) (lawful : c.Lawful st.setup) (member : r ∈ rs) {n p : Nat}
    (few : n ≤ rs.length + 1) (next : NextPrime.Next (n * 2 + 5) p) :
    Room (st.setup.staged c p (int st.f.length)) (.new (st.setup.staged c p (int st.f.length)) p) := by
  have some_bytes := sealed.some_bytes member
  have longer := sealed.longer member
  obtain ⟨-, T', rfl, -, uses⟩ := staged_uses sealed small lawful some_bytes few next
  obtain ⟨np, size, -⟩ := Writing.new.counted uses
  have slots := next.from_
  refine ⟨rfl, ?_, ?_⟩
  · rw [np, small.blocksz some_bytes, staged_offset, bytesOf_nil]
    omega
  · rw [size, uses.wMaxSz, List.length_nil]
    omega

/-- Nothing is copied into an archive whose file is not found. -/
theorem copyChunks_shut (site : Site) (sealed : Sealed T st rs) (shut : ¬ a.Opens c.id) (room : Room a w)
    {ar : List (Bytes × Int)} (listed : ∀ e ∈ ar, e.1 ∈ rs.map Reserved.hash) (some_live : ar ≠ []) :
    copyChunks site st c a ar w = .error .io := by
  obtain ⟨⟨key, value⟩, ar, rfl⟩ := List.exists_cons_of_ne_nil some_live
  obtain ⟨r, member, rfl⟩ := List.mem_map.mp (listed (key, value) List.mem_cons_self)
  obtain ⟨w', e, put, -, kind⟩ := found_shut shut w r.hash r.chunk
  rw [copyChunks]
  split
  · rfl
  · rw [(sealed.read_record site member).1]
    dsimp only
    rw [put, kind room]

def noneFails : Outside := { firstNeeded with moves := fun _ => .works }

end EncryptedDedup.SDFS.HashBlobArchive
