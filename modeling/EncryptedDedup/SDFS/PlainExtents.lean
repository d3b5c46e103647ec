import EncryptedDedup.SDFS.InsertRun
import EncryptedDedup.SDFS.MapSlots
import EncryptedDedup.SDFS.RecordCodec
import EncryptedDedup.SDFS.References

/-!
# Extents of a record

The extents that are decoded from a record are not marked as inserted, and an insertion leaves the chunks of all objects as
they are. Unless it splits an extent, every extent stays under its position.
-/

namespace EncryptedDedup.SDFS.Fingers
open SparseDataChunk (Keyed)

variable {ar ar' : Fingers} {p : HashLocPair} {ep : Int} {r : Nat}

/-! ### Insertions -/

/-- The objects that are used exist, and none was written by the accelerator. -/
structure Plain (ar : Fingers) : Prop where
  fresh : ∀ {k r}, ar.tree.get k = some r → r < ar.allocated
  plain : ∀ r, (ar.objects r).inserted = false

/-- The objects from before refer to the same chunks. -/
structure Grows (ar ar' : Fingers) : Prop where
  more : ar.allocated ≤ ar'.allocated
  chunks : ∀ r < ar.allocated, (ar'.objects r).chunk = (ar.objects r).chunk

/-- The new extent has a place, every extent is under its position, and none reaches behind the new one that starts before
it. -/
structure Unsplit (ar : Fingers) (p : HashLocPair) : Prop where
  low : 0 ≤ p.pos
  range : p.pos ≤ p.ep
  keyed : Keyed ar
  across : ∀ k h, ar.entry k = some h → h.pos < p.pos → p.pos ≤ h.ep → h.ep ≤ p.ep

theorem Grows.refl (ar : Fingers) : Grows ar ar := ⟨Nat.le_refl _, fun _ _ => rfl⟩

theorem Grows.trans {ar'' : Fingers} (first : Grows ar ar') (second : Grows ar' ar'') : Grows ar ar'' :=
  ⟨first.more.trans second.more, fun r less => (second.chunks r (less.trans_le first.more)).trans (first.chunks r less)⟩

theorem Plain.put (plain : ar.Plain) (k : Int) {h : HashLocPair} (unmarked : h.inserted = false) : (ar.put k h).Plain := by
  refine ⟨allocated_put plain.fresh k h, fun r => ?_⟩
  unfold Fingers.put putRef set
  dsimp only
  split
  · exact unmarked
  · exact plain.plain r

theorem grows_put (ar : Fingers) (k : Int) (h : HashLocPair) : Grows ar (ar.put k h) := by
  refine ⟨Nat.le_succ _, fun r less => ?_⟩
  unfold Fingers.put putRef set
  dsimp only
  rw [if_neg (Nat.ne_of_lt less)]

theorem trim_objects (p : HashLocPair) (ep : Int) (ar : Fingers) (r i : Nat) :
    ((trim p ep ar r).objects i).chunk = (ar.objects i).chunk ∧
      ((trim p ep ar r).objects i).inserted = (ar.objects i).inserted := by
  unfold trim set remove putRef HashLocPair.chunk
  dsimp only
  split_ifs <;> dsimp only <;> split_ifs <;> simp_all

theorem trim_allocated (p : HashLocPair) (ep : Int) (ar : Fingers) (r : Nat) :
    (trim p ep ar r).allocated = ar.allocated := by
  unfold trim set remove putRef
  dsimp only
  split_ifs <;> rfl

theorem trim_get {k : Int} {i : Nat} (found : (trim p ep ar r).tree.get k = some i) : i = r ∨ ar.tree.get k = some i := by
  unfold trim set remove putRef at found
  dsimp only at found
  split_ifs at found <;> simp only [OrderedMap.get_put, OrderedMap.get_delete] at found <;> grind

theorem Plain.trim (plain : ar.Plain) (known : r < ar.allocated) : (trim p ep ar r).Plain := by
  refine ⟨fun found => ?_, fun i => (trim_objects p ep ar r i).2.trans (plain.plain i)⟩
  rw [trim_allocated]
  rcases trim_get found with rfl | old
  · exact known
  · exact plain.fresh old

theorem grows_trim (p : HashLocPair) (ep : Int) (ar : Fingers) (r : Nat) : Grows ar (trim p ep ar r) :=
  ⟨(trim_allocated p ep ar r).ge, fun i _ => (trim_objects p ep ar r i).1⟩

theorem key_unique (keyed : Keyed ar) {j k : Int} (stored : ar.tree.get j = some r) (other : ar.tree.get k = some r) :
    k = j :=
  (keyed k _ (entry_of_get other)).symm.trans (keyed j _ (entry_of_get stored))

theorem entry_trim_behind (keyed : Keyed ar) {j : Int} (stored : ar.tree.get j = some r)
    (behind : p.pos ≤ (ar.objects r).pos) {k : Int} {h : HashLocPair} (found : (trim p ep ar r).entry k = some h) :
    k = ep ∧ h.pos = ep ∨ ar.entry k = some h := by
  have own := keyed j _ (entry_of_get stored)
  obtain ⟨i, there, rfl⟩ := get_of_entry found
  have cases_ : k = ep ∧ i = r ∨ k ≠ j ∧ ar.tree.get k = some i := by
    unfold trim at there
    rw [if_pos behind] at there
    unfold set remove putRef at there
    dsimp only at there
    rw [own] at there
    split_ifs at there
    · rw [OrderedMap.get_put, OrderedMap.get_delete] at there
      split_ifs at there with here gone
      · exact .inl ⟨here, (Option.some.inj there).symm⟩
      · exact .inr ⟨gone, there⟩
    · rw [OrderedMap.get_delete] at there
      split_ifs at there with gone
      exact .inr ⟨gone, there⟩
  unfold trim
  rw [if_pos behind]
  rcases cases_ with ⟨here, rfl⟩ | ⟨other, old⟩
  · refine .inl ⟨here, ?_⟩
    unfold set remove putRef
    dsimp only
    split_ifs <;> exact congrArg HashLocPair.pos (if_pos rfl)
  · have apart : i ≠ r := by
      rintro rfl
      exact other (key_unique keyed stored old)
    refine .inr ((entry_of_get old).trans ?_)
    unfold set remove putRef
    dsimp only
    split_ifs <;> exact congrArg some (if_neg apart).symm

theorem entry_trim_before (ahead : (ar.objects r).pos < p.pos) (within : (ar.objects r).ep ≤ ep) {k : Int}
    {h : HashLocPair} (found : (trim p ep ar r).entry k = some h) :
    ∃ g, ar.entry k = some g ∧ h.pos = g.pos ∧ (h = g ∨ h.ep = int p.pos) := by
  obtain ⟨i, there, rfl⟩ := get_of_entry found
  unfold trim at there ⊢
  rw [if_neg (Int.not_le.mpr ahead), if_neg (Int.not_lt.mpr within)] at there ⊢
  unfold set at there ⊢
  refine ⟨_, entry_of_get there, ?_⟩
  dsimp only
  split_ifs with same
  · subst same
    refine ⟨rfl, .inr ?_⟩
    rw [HashLocPair.ep]
    exact congrArg int (by ring)
  · exact ⟨rfl, .inl rfl⟩

theorem Unsplit.trim (unsplit : ar.Unsplit p) {j : Int} (stored : ar.tree.get j = some r)
    (reaches : p.pos ≤ (ar.objects r).ep) : (trim p p.ep ar r).Unsplit p := by
  have here := entry_of_get stored
  have range := unsplit.range
  by_cases behind : p.pos ≤ (ar.objects r).pos
  · refine ⟨unsplit.low, range, fun k h found => ?_, fun k h found before => ?_⟩
    · rcases entry_trim_behind unsplit.keyed stored behind found with ⟨rfl, pos⟩ | old
      · exact pos
      · exact unsplit.keyed k h old
    · rcases entry_trim_behind unsplit.keyed stored behind found with ⟨-, pos⟩ | old
      · omega
      · exact unsplit.across k h old before
  · have within := unsplit.across j _ here (Int.not_le.mp behind) reaches
    refine ⟨unsplit.low, range, fun k h found => ?_, fun k h found before reaches' => ?_⟩
    · obtain ⟨g, old, pos, -⟩ := entry_trim_before (Int.not_le.mp behind) within found
      rw [pos]
      exact unsplit.keyed k g old
    · obtain ⟨g, old, -, rfl | cut⟩ := entry_trim_before (Int.not_le.mp behind) within found
      · exact unsplit.across k h old before reaches'
      · have small : p.ep < 2 ^ 31 := by
          rw [HashLocPair.ep, int]
          have := Int.bmod_lt (x := p.pos + p.nlen) (m := 2 ^ 32) (by decide)
          omega
        have low := unsplit.low
        rw [cut, int_eq (by omega) (by omega)]
        exact range

theorem Plain.insert {chunkLength : Int} {fuel : Nat} {e : Option Thrown} (plain : ar.Plain) (unsplit : ar.Unsplit p)
    (unmarked : p.inserted = false) (inserted : insertHashLocPair chunkLength fuel ar p = .finished (ar', e)) :
    ar'.Plain ∧ Grows ar ar' ∧ Keyed ar' := by
  unfold insertHashLocPair at inserted
  split at inserted
  · obtain ⟨rfl, -⟩ := Prod.mk.inj (Outcome.finished.inj inserted)
    exact ⟨plain, .refl ar, unsplit.keyed⟩
  · cases walked : (insertLoop p p.ep).run fuel ⟨ar, p.ep⟩ with
    | undefined =>
      rw [walked] at inserted
      cases inserted
    | running =>
      rw [walked] at inserted
      cases inserted
    | finished w =>
      rw [walked] at inserted
      obtain ⟨rfl, -⟩ := Prod.mk.inj (Outcome.finished.inj inserted)
      obtain ⟨n, -, tested, -⟩ := Loop.run_finished _ walked
      have kept := Loop.invariant _ (I := fun t : Walk => t.ar.Plain ∧ Grows ar t.ar ∧ t.ar.Unsplit p)
        ⟨plain, .refl ar, unsplit⟩ (fun t u inv guarded moved => by
          obtain ⟨plain, grows, unsplit⟩ := inv
          cases floor : t.ar.tree.floorEntry t.ep with
          | none =>
            rw [guard_bottom floor] at guarded
            cases guarded
          | some e =>
            obtain ⟨j, r⟩ := e
            obtain ⟨stored, -, -⟩ := OrderedMap.floorEntry_eq_some floor
            rw [guard_floor floor] at guarded
            rw [body_floor floor] at moved
            obtain rfl := Option.some.inj moved
            exact ⟨plain.trim (plain.fresh stored), grows.trans (grows_trim p _ t.ar r),
              unsplit.trim stored (of_decide_eq_true guarded)⟩) tested
      obtain ⟨plain', grows', unsplit'⟩ := kept
      refine ⟨plain'.put p.pos unmarked, grows'.trans (grows_put w.ar p.pos p), fun k h found => ?_⟩
      rw [entry_put plain'.fresh] at found
      split at found
      · rename_i here
        rw [← Option.some.inj found, here]
      · exact unsplit'.keyed k h found

end EncryptedDedup.SDFS.Fingers

namespace EncryptedDedup.SDFS

/-! ### Decoding -/

theorem Fingers.empty_plain : Fingers.empty.Plain := ⟨fun found => (by cases found), fun _ => rfl⟩

theorem HashLocPair.ofArray_unmarked {K : Config} {b : Bytes} {p : HashLocPair} (decoded : ofArray K b = .ok p) :
    p.inserted = false := by
  unfold ofArray at decoded
  obtain ⟨⟨hash, bf⟩, -, decoded⟩ := orThrow_bind_ok decoded
  obtain ⟨⟨hashloc, bf⟩, -, decoded⟩ := orThrow_bind_ok decoded
  obtain ⟨⟨len, bf⟩, -, decoded⟩ := orThrow_bind_ok decoded
  obtain ⟨⟨pos, bf⟩, -, decoded⟩ := orThrow_bind_ok decoded
  obtain ⟨⟨offset, bf⟩, -, decoded⟩ := orThrow_bind_ok decoded
  obtain ⟨⟨nlen, bf⟩, -, decoded⟩ := orThrow_bind_ok decoded
  obtain ⟨-, -, decoded⟩ := bind_ok decoded
  obtain rfl := Except.ok.inj decoded
  rfl

namespace SparseDataChunk

variable {K : Config} {c ck : SparseDataChunk}

theorem getCluster_plain {left z : Nat} {hb hl : ByteBuffer} {ar ar' : Fingers} (plain : ar.Plain)
    (read : getCluster K hb hl z ar left = .ok ar') : ar'.Plain := by
  induction left generalizing hb hl z ar with
  | zero =>
    obtain rfl := Except.ok.inj read
    exact plain
  | succ left ih =>
    rw [getCluster] at read
    obtain ⟨⟨hl', hl⟩, -, read⟩ := orThrow_bind_ok read
    obtain ⟨⟨hash', hb⟩, -, read⟩ := orThrow_bind_ok read
    dsimp only at read
    split at read
    · exact ih (plain.put _ rfl) read
    · obtain rfl := Except.ok.inj read
      exact plain

theorem getEntries_plain {left : Nat} {buf buf' : ByteBuffer} (plain : c.ar.Plain)
    (read : getEntries K c buf left = .ok (ck, buf')) : ck.ar.Plain := by
  induction left generalizing c buf with
  | zero =>
    obtain ⟨rfl, -⟩ := Prod.mk.inj (Except.ok.inj read)
    exact plain
  | succ left ih =>
    rw [getEntries] at read
    obtain ⟨⟨b, buf⟩, -, read⟩ := orThrow_bind_ok read
    obtain ⟨p, decoded, read⟩ := bind_ok read
    refine ih ?_ read
    exact plain.put _ (HashLocPair.ofArray_unmarked decoded)

theorem ofBytes_plain {raw : Bytes} {version : UInt8} (decoded : ofBytes K raw version = .ok ck) : ck.ar.Plain := by
  unfold ofBytes marshall at decoded
  split at decoded
  · unfold marshall0 at decoded
    obtain ⟨⟨b, buf⟩, -, decoded⟩ := orThrow_bind_ok decoded
    obtain ⟨⟨hash, buf⟩, -, decoded⟩ := orThrow_bind_ok decoded
    obtain ⟨⟨_, buf⟩, -, decoded⟩ := orThrow_bind_ok decoded
    obtain ⟨⟨hashloc, buf⟩, -, decoded⟩ := orThrow_bind_ok decoded
    obtain rfl := Except.ok.inj decoded
    exact Fingers.empty_plain.put 0 rfl
  · split at decoded
    · unfold marshall1 at decoded
      obtain ⟨⟨doop, buf⟩, -, decoded⟩ := orThrow_bind_ok decoded
      obtain ⟨⟨hash, buf⟩, -, decoded⟩ := orThrow_bind_ok decoded
      obtain ⟨⟨hashlocs, buf⟩, -, decoded⟩ := orThrow_bind_ok decoded
      obtain ⟨ar, read, decoded⟩ := bind_ok decoded
      obtain rfl := Except.ok.inj decoded
      exact getCluster_plain Fingers.empty_plain read
    · unfold marshall2 at decoded
      obtain ⟨⟨flags, buf⟩, -, decoded⟩ := orThrow_bind_ok decoded
      obtain ⟨⟨_, buf⟩, -, decoded⟩ := orThrow_bind_ok decoded
      obtain ⟨⟨zlen, buf⟩, -, decoded⟩ := orThrow_bind_ok decoded
      obtain ⟨⟨c, buf⟩, read, decoded⟩ := bind_ok decoded
      obtain ⟨⟨doop, buf⟩, -, decoded⟩ := orThrow_bind_ok decoded
      obtain rfl := Except.ok.inj decoded
      have plain : c.ar.Plain := getEntries_plain Fingers.empty_plain read
      exact plain

end SparseDataChunk

theorem LongByteArrayMap.get_plain {K : Config} {m : LongByteArrayMap} {pos : Nat} {ck : SparseDataChunk}
    (stored : get K m pos = .ok (some ck)) : ck.ar.Plain := by
  unfold get at stored
  dsimp only at stored
  split_ifs at stored
  all_goals first | cases stored | skip
  split at stored
  · rename_i decoded
    obtain rfl := Option.some.inj (Except.ok.inj stored)
    exact SparseDataChunk.ofBytes_plain decoded
  · cases stored
  · cases stored

end EncryptedDedup.SDFS
