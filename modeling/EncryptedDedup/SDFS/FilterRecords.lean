import EncryptedDedup.SDFS.LocalLookupFilter

/-!
# Records of `LocalLookupFilter`

The record of a key is read back as it was written, and what every call does to it.
-/

namespace EncryptedDedup.SDFS.LocalLookupFilter

variable {ι : Type}

/-! ### Records -/

def recordOf (loc n : Int) : Bytes := toBE64 loc ++ toBE64 n

/-- What a count of references means to `put`: one, if it is not positive. -/
def refs (ct : Int) : Int := if ct ≤ 0 then 1 else ct

theorem refs_pos (ct : Int) : 0 < refs ct := by
  unfold refs
  split <;> omega

namespace Stores

def count (s : Stores ι) (f : ι) (key : Bytes) : Int :=
  match s.record f key with
  | none => 0
  | some v => ofBE64 (slice v 8 8)

def location (s : Stores ι) (f : ι) (key : Bytes) : Option Int := (s.record f key).map fun v => ofBE64 (slice v 0 8)

def Holds (s : Stores ι) (f : ι) (key : Bytes) : Prop := (s.record f key).isSome

instance instDecidableHolds (s : Stores ι) (f : ι) (key : Bytes) : Decidable (s.Holds f key) :=
  inferInstanceAs (Decidable (_ = true))

theorem record_claim (s : Stores ι) (key k : Bytes) (ct : Int) (g : ι) : (s.claim key ct).record g k = s.record g k := rfl

theorem references_claim (s : Stores ι) (key k : Bytes) (ct : Int) :
    (s.claim key ct).references k = if k = key then s.references k + ct else s.references k := rfl

variable [DecidableEq ι]

theorem record_store (s : Stores ι) (f g : ι) (key k : Bytes) (v : Option Bytes) :
    (s.store f key v).record g k = if g = f ∧ k = key then v else s.record g k := by
  unfold record store
  by_cases filter : g = f
  · by_cases same : k = key
    · simp only [filter, same, and_self, if_true]
    · simp only [filter, same, and_false, if_true, if_false]
  · simp only [filter, false_and, if_false]

theorem references_store (s : Stores ι) (f : ι) (key : Bytes) (v : Option Bytes) :
    (s.store f key v).references = s.references := rfl

theorem closed_store (s : Stores ι) (f g : ι) (key : Bytes) (v : Option Bytes) :
    ((s.store f key v).filters g).closed = (s.filters g).closed := by
  unfold store
  dsimp only
  split <;> rfl

end Stores

theorem orFail_some {α β : Type} (a : α) (e : Failure) (k : α → Except Failure β) : (orFail (some a) e >>= k) = k a := rfl

theorem orFail_none {α β : Type} (e : Failure) (k : α → Except Failure β) : (orFail none e >>= k) = .error e := rfl

theorem ok_bind {α β : Type} (a : α) (k : α → Except Failure β) : (Except.ok a >>= k) = k a := rfl

theorem error_bind {α β : Type} (e : Failure) (k : α → Except Failure β) : (Except.error e >>= k) = .error e := rfl

theorem getLong_record (loc n : Int) : (ByteBuffer.wrap (recordOf loc n)).getLong =
    some (long loc, ByteBuffer.read (toBE64 loc) (toBE64 n)) :=
  ByteBuffer.getLong_read [] (toBE64 n) loc

theorem getLong_count (loc n : Int) : (ByteBuffer.read (toBE64 loc) (toBE64 n)).getLong =
    some (long n, ByteBuffer.read (recordOf loc n) []) := by
  have read := ByteBuffer.getLong_read (toBE64 loc) [] n
  rw [List.append_nil] at read
  exact read

theorem getLong_past (loc n : Int) : (ByteBuffer.read (recordOf loc n) []).getLong = none := by
  have past : ¬ ((ByteBuffer.read (recordOf loc n) []).position + 8 ≤ (ByteBuffer.read (recordOf loc n) []).array.length) := by
    simp only [ByteBuffer.read, List.append_nil]
    omega
  rw [ByteBuffer.getLong, ByteBuffer.get, if_neg past, Option.map_none]

theorem length_recordOf (loc n : Int) : (recordOf loc n).length = 16 := by
  rw [recordOf, List.length_append, length_toBE64, length_toBE64]

theorem putLongAt_record {buf : ByteBuffer} {loc n : Int} (array : buf.array = recordOf loc n) (m : Int) :
    buf.putLongAt 8 m = some ⟨recordOf loc m, buf.position⟩ := by
  have size := length_recordOf loc n
  have front : (recordOf loc n).take 8 = toBE64 loc := by
    rw [recordOf, List.take_append_of_le_length (by rw [length_toBE64]), List.take_of_length_le (by rw [length_toBE64])]
  rw [ByteBuffer.putLongAt, array, if_pos (by rw [size]), overwrite, front,
    List.drop_eq_nil_of_le (by rw [size, length_toBE64]), List.append_nil]
  rfl

theorem putLongAt_first (loc n m : Int) : (ByteBuffer.read (toBE64 loc) (toBE64 n)).putLongAt 8 m =
    some ⟨recordOf loc m, (toBE64 loc).length⟩ :=
  putLongAt_record rfl m

theorem putLongAt_second (loc n m : Int) : (ByteBuffer.read (recordOf loc n) []).putLongAt 8 m =
    some ⟨recordOf loc m, (recordOf loc n).length⟩ :=
  putLongAt_record (List.append_nil _) m

theorem newRecord_eq (loc ct : Int) : newRecord (toBE64 loc) ct = .ok (recordOf loc (refs ct)) := by
  unfold newRecord ByteBuffer.putLong
  rw [ByteBuffer.allocate_eq, ByteBuffer.put_written, length_toBE64, if_pos (by decide), List.nil_append]
  dsimp only [orFail, Except.bind, bind]
  rw [ByteBuffer.put_written, length_toBE64, if_pos (by decide)]
  dsimp only [orFail, Except.bind, bind]
  rw [ByteBuffer.array_written]
  rfl

theorem addTo_record (loc n ct : Int) :
    addTo (ByteBuffer.read (toBE64 loc) (toBE64 n)) ct = .ok (long (long n + refs ct)) := by
  unfold addTo refs
  rw [getLong_count]
  dsimp only [orFail, Except.bind, bind]
  split
  · rfl
  · rw [Int.add_comm]
    rfl

/-! ### What the calls do -/

variable {s : Stores ι} {f : ι} {key : Bytes} {loc n ct : Int}

theorem count_none (absent : s.record f key = none) : s.count f key = 0 := by
  rw [Stores.count, absent]

theorem count_some (present : s.record f key = some (recordOf loc n)) : s.count f key = long n := by
  have bytes : slice (recordOf loc n) 8 8 = toBE64 n := by
    have between := slice_between (toBE64 loc) (toBE64 n) []
    rwa [List.append_nil, length_toBE64, length_toBE64] at between
  rw [Stores.count, present]
  dsimp only
  rw [bytes, ofBE64_toBE64, long]

theorem location_some (present : s.record f key = some (recordOf loc n)) : s.location f key = some (long loc) := by
  have bytes : slice (recordOf loc n) 0 8 = toBE64 loc := by
    have between := slice_between [] (toBE64 loc) (toBE64 n)
    rwa [List.nil_append, length_toBE64] at between
  rw [Stores.location, present, Option.map_some, bytes, ofBE64_toBE64, long]

variable [DecidableEq ι]

theorem put_none (opened : (s.filters f).closed = false) (absent : s.record f key = none) :
    put s f key (toBE64 loc) ct =
      .ok (⟨true, toBE64 loc⟩, (s.claim key 1).store f key (some (recordOf loc (refs ct)))) := by
  unfold put
  rw [opened, absent, newRecord_eq]
  rfl

theorem put_some (opened : (s.filters f).closed = false) (present : s.record f key = some (recordOf loc n)) (locs : Bytes) :
    put s f key locs ct =
      .ok (⟨false, toBE64 (long loc)⟩, s.store f key (some (recordOf loc (long (long n + refs ct))))) := by
  unfold put
  simp only [opened, present, getLong_record, orFail_some, addTo_record, ok_bind, putLongAt_first]
  rfl

theorem putAgain_none (opened : (s.filters f).closed = false) (absent : s.record f key = none) :
    putAgain s f key ct = .ok (-1, s) := by
  unfold putAgain
  rw [opened, absent]
  rfl

theorem putAgain_some (opened : (s.filters f).closed = false) (present : s.record f key = some (recordOf loc n)) :
    putAgain s f key ct = .ok (long loc, s.store f key (some (recordOf loc (long (long n + refs ct))))) := by
  unfold putAgain
  simp only [opened, present, getLong_record, orFail_some, addTo_record, ok_bind, putLongAt_first]
  rfl

theorem putAt_none (opened : (s.filters f).closed = false) (absent : s.record f key = none) :
    putAt s f key loc ct = .ok (s.store f key (some (recordOf loc (refs ct)))) := by
  unfold putAt
  rw [opened, absent, newRecord_eq]
  rfl

/-- On a key that the filter holds, `put(key, pos, ct)` always reads past the end of the record. -/
theorem putAt_some (opened : (s.filters f).closed = false) (present : s.record f key = some (recordOf loc n)) :
    putAt s f key (long loc) ct = .error .bufferUnderflow := by
  have past : addTo (ByteBuffer.read (recordOf loc n) []) (long (ct + long n)) = .error .bufferUnderflow := by
    rw [addTo, getLong_past, orFail_none]
  unfold putAt
  simp only [opened, present, getLong_record, orFail_some, getLong_count, past, error_bind, ne_eq, not_true, if_false,
    Bool.false_eq_true]

theorem claimKey_none (absent : s.record f key = none) : claimKey s f key loc ct = .ok (ct, s) := by
  unfold claimKey
  rw [absent]
  rfl

theorem claimKey_keep (present : s.record f key = some (recordOf loc n)) (left : 0 < long (ct + long n)) :
    claimKey s f key (long loc) ct = .ok (0, s.store f key (some (recordOf loc (long (ct + long n))))) := by
  unfold claimKey
  simp only [present, getLong_record, orFail_some, getLong_count, ne_eq, not_true, if_false, not_le.mpr left,
    length_recordOf, Nat.reduceSub, putLongAt_second]
  rfl

theorem claimKey_drop (present : s.record f key = some (recordOf loc n)) (last : long (ct + long n) = 0) :
    claimKey s f key (long loc) ct = .ok (-1, (s.store f key none).claim key (-1)) := by
  unfold claimKey
  simp only [present, getLong_record, orFail_some, getLong_count, ne_eq, not_true, if_false, last, le_refl, if_true]
  rfl

end EncryptedDedup.SDFS.LocalLookupFilter
