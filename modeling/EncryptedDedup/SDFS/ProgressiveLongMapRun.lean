import EncryptedDedup.SDFS.ProgressiveLongMap

/-!
# Runs of `ProgressiveFileByteArrayLongMap`

What `put` and `remove` do to the keys that are in the table, and when that is what they should do.
-/

namespace EncryptedDedup.SDFS.ProgressiveLongMap
open SlotFile
open OpenAddressing (Slot Vacant)

variable {B : BloomFilter} {T : Layout 1} {s s' : State B} {key : Bytes} {i : Nat}

/-- The table is consistent, and the filter has its keys. -/
structure Sound (T : Layout 1) (s : State B) : Prop where
  consistent : Consistent T s.toSlots
  filtered : ∀ i key, IsKey T key → slotAt T s.toSlots i = .held key → B.mightContain s.bf key = true
  idle : s.runningGC = false

/-! ### Lookups -/

def StoredAt (T : Layout 1) (s : State B) (key : Bytes) (i : Nat) : Prop := slotAt T s.toSlots i = .held key

theorem locate_stored (sound : Sound T s) (plain : IsKey T key) (stored : StoredAt T s key i) :
    locate T s key = some (i * T.el) := by
  have contained := sound.filtered i key plain stored
  unfold locate
  rw [if_neg (by rw [contained]; exact fun both => nomatch both.2)]
  exact SlotFile.locate_stored sound.consistent plain stored

theorem locate_absent (sound : Sound T s) (plain : IsKey T key) (absent : ∀ i, ¬ StoredAt T s key i) :
    locate T s key = none := by
  unfold locate
  split
  · rfl
  · exact SlotFile.locate_absent sound.consistent plain absent

def lookup (T : Layout 1) (s : State B) (key : Bytes) : Option Int := (locate T s key).map (valueAt T s.toSlots)

theorem lookup_stored (sound : Sound T s) (plain : IsKey T key) (stored : StoredAt T s key i) :
    lookup T s key = some (valueAt T s.toSlots (i * T.el)) := by
  rw [lookup, locate_stored sound plain stored, Option.map_some]

theorem lookup_absent (sound : Sound T s) (plain : IsKey T key) (absent : ∀ i, ¬ StoredAt T s key i) :
    lookup T s key = none := by
  rw [lookup, locate_absent sound plain absent, Option.map_none]

theorem get_state (idle : s.runningGC = false) (key : Bytes) (claim : Bool) :
    ∃ claims, (get T s key claim).2 = { s with claims := claims } := by
  unfold get
  cases locate T s key with
  | none => exact ⟨s.claims, rfl⟩
  | some pos =>
    cases claim with
    | false => exact ⟨s.claims, if_neg (by simpa using idle)⟩
    | true => exact ⟨insert (pos / T.el) s.claims, if_neg (by simpa using idle)⟩

theorem lookup_same (sound : Sound T s) (sound' : Sound T s') (plain : IsKey T key)
    (kept : ∀ i, StoredAt T s key i →
      StoredAt T s' key i ∧ valueAt T s'.toSlots (i * T.el) = valueAt T s.toSlots (i * T.el))
    (old : ∀ i, StoredAt T s' key i → StoredAt T s key i) : lookup T s' key = lookup T s key := by
  by_cases known : ∃ i, StoredAt T s key i
  · obtain ⟨i, stored⟩ := known
    obtain ⟨stored', value⟩ := kept i stored
    rw [lookup_stored sound plain stored, lookup_stored sound' plain stored', value]
  · have absent := not_exists.mp known
    rw [lookup_absent sound plain absent, lookup_absent sound' plain fun i stored => absent i (old i stored)]

theorem Sound.of_slots (sound : Sound T s) (slots : s'.toSlots = s.toSlots) (bf : s'.bf = s.bf)
    (idle : s'.runningGC = false) : Sound T s' :=
  ⟨slots ▸ sound.consistent, fun i key plain held => bf ▸ sound.filtered i key plain (slots ▸ held), idle⟩

theorem valueAt_other {f : Slots} (consistent : Consistent T f) {j : Nat} {w : Bytes} (inside : i < T.size)
    (fits : w.length ≤ T.el) (other : j ≠ i) {f' : Slots} (written : f'.kFC = overwrite f.kFC (i * T.el) w) :
    valueAt T f' (j * T.el) = valueAt T f (j * T.el) := by
  unfold valueAt longAt
  rw [written, slice_other consistent inside fits (Nat.le_refl (T.hashLength + 8 * 1)) other]

theorem room (x : Int) : T.hashLength + (toBE64 x).length ≤ T.el := by
  rw [length_toBE64]
  exact Nat.le_refl (T.hashLength + 8 * 1)

theorem StoredAt.lt (sound : Sound T s) (plain : IsKey T key) (stored : StoredAt T s key i) : i < T.size :=
  (sound.consistent.table.reached key i plain stored).lt (homeOf_lt key) fun _ => nextOf_lt key

theorem StoredAt.unique (sound : Sound T s) (plain : IsKey T key) {j : Nat} (stored : StoredAt T s key i)
    (other : StoredAt T s key j) : j = i := sound.consistent.table.single key j i plain other stored

/-! ### Puts -/

theorem insertionPoint_stored (sound : Sound T s) (plain : IsKey T key) (stored : StoredAt T s key i) :
    insertionPoint T s key = (s, .ok (-(i * T.el : Nat) - 1)) := by
  have contained := sound.filtered i key plain stored
  unfold insertionPoint
  rw [contained, Bool.or_true]
  dsimp only
  rw [insertionIndex_stored sound.consistent plain stored]

theorem claimStored_stored (sound : Sound T s) (plain : IsKey T key) (stored : StoredAt T s key i) :
    claimStored T s i key = ({ s with claims := insert i s.claims }, .ok ⟨false, valueAt T s.toSlots (i * T.el)⟩) := by
  have contained := sound.filtered i key plain stored
  unfold claimStored
  rw [if_neg (by omega), B.put_contained _ _ contained, Int.toNat_natCast]
  have sound' : Sound T { s with claims := insert i s.claims } := sound.of_slots rfl rfl sound.idle
  dsimp only
  unfold get
  rw [locate_stored sound' plain stored]
  dsimp only
  rw [if_pos rfl, offset_div, sound.idle]
  simp

theorem tdiv_offset (i : Nat) : ((i * T.el : Nat) : Int).tdiv T.el = i := by
  rw [← Int.ofNat_tdiv, offset_div]

theorem put_stored (sound : Sound T s) (plain : IsKey T key) (stored : StoredAt T s key i) (value : Int) :
    put T s key value =
      if refuses T s then ({ s with full := true, active := false }, .error .hashtableFull)
      else ({ s with claims := insert i s.claims }, .ok ⟨false, valueAt T s.toSlots (i * T.el)⟩) := by
  unfold put
  rw [insertionPoint_stored sound plain stored]
  split
  · rfl
  · have decoded : -(-((i * T.el : Nat) : Int) - 1) - 1 = (i * T.el : Nat) := by omega
    dsimp only
    rw [if_pos (by omega), decoded, tdiv_offset]
    exact claimStored_stored sound plain stored

/-- The offset is negated once more than it should be. -/
theorem putChunk_stored {cm : ChunkData} (sound : Sound T s) (plain : IsKey T cm.hash)
    (stored : StoredAt T s cm.hash i) (answer : WriteChunk) :
    putChunk T s cm answer =
      if refuses T s then ({ s with full := true, active := false }, .error .hashtableFull)
      else if i = 0 then ({ s with claims := insert i s.claims }, .ok ⟨false, valueAt T s.toSlots (i * T.el)⟩)
      else (s, .error .indexOutOfBounds) := by
  unfold putChunk
  dsimp only
  rw [insertionPoint_stored sound plain stored]
  split
  · rfl
  · have decoded : (-(-((i * T.el : Nat) : Int) - 1) - 1) * -1 = -((i * T.el : Nat) : Int) := by omega
    dsimp only
    rw [if_pos (by omega), decoded, Int.neg_tdiv, tdiv_offset]
    by_cases first : i = 0
    · subst first
      rw [if_pos rfl]
      exact claimStored_stored sound plain stored
    · rw [if_neg first, claimStored, if_pos (by omega)]

theorem insertAt_sound (sound : Sound T s) (plain : IsKey T key) (absent : ∀ j, ¬ StoredAt T s key j)
    (vacant : Vacant (slotAt T s.toSlots) (nextOf T key) (homeOf T key) i) (value : Int) :
    Sound T (insertAt T s (i * T.el) key value).1 := by
  have inside : i < T.size := vacant.reached.lt (homeOf_lt key) (fun j => nextOf_lt key)
  have slots : (insertAt T s (i * T.el) key value).1.toSlots = s.toSlots.hold T i key (toBE64 value) := by
    unfold insertAt
    dsimp only
    rw [offset_div]
    rfl
  obtain ⟨here, others⟩ := slotAt_hold sound.consistent plain inside (room value)
  refine ⟨slots ▸ sound.consistent.hold plain vacant absent (room value), ?_, sound.idle⟩
  intro j key' plain' held
  rw [slots] at held
  show B.mightContain (B.put s.bf key) key' = true
  by_cases same : j = i
  · rw [same, here] at held
    rw [← Slot.held.inj held]
    exact B.mightContain_put _ _
  · rw [others j same] at held
    exact B.mightContain_kept _ _ _ (sound.filtered j key' plain' held)

theorem insertionPoint_absent (sound : Sound T s) (plain : IsKey T key) (absent : ∀ j, ¬ StoredAt T s key j) :
    ∃ full, (insertionPoint T s key).1 = { s with full := full } ∧ ∀ pos, (insertionPoint T s key).2 = .ok pos →
      ∃ i, pos = (i * T.el : Nat) ∧ Vacant (slotAt T s.toSlots) (nextOf T key) (homeOf T key) i := by
  unfold insertionPoint
  dsimp only
  generalize result : insertionIndex T s.toSlots key (s.runningGC || B.mightContain s.bf key) = r
  split
  · exact ⟨true, rfl, fun pos same => nomatch same⟩
  · refine ⟨s.full, rfl, fun pos same => ?_⟩
    exact insertionIndex_absent sound.consistent plain absent (result.trans same)

theorem put_sound (sound : Sound T s) (plain : IsKey T key) (value : Int) : Sound T (put T s key value).1 := by
  by_cases known : ∃ i, StoredAt T s key i
  · obtain ⟨i, stored⟩ := known
    rw [put_stored sound plain stored]
    split
    · exact sound.of_slots rfl rfl sound.idle
    · exact sound.of_slots rfl rfl sound.idle
  · have absent := not_exists.mp known
    obtain ⟨full, before, vacant⟩ := insertionPoint_absent sound plain absent
    have sound' : Sound T { s with full := full } := sound.of_slots rfl rfl sound.idle
    unfold put
    split
    · exact sound.of_slots rfl rfl sound.idle
    · generalize insertionPoint T s key = point at before vacant
      obtain ⟨s₁, result⟩ := point
      obtain rfl : s₁ = { s with full := full } := before
      cases result with
      | error e => exact sound'
      | ok pos =>
        obtain ⟨i, rfl, here⟩ := vacant pos rfl
        dsimp only
        rw [if_neg (by omega), Int.toNat_natCast]
        exact insertAt_sound sound' plain absent here value

theorem putChunk_sound {cm : ChunkData} (sound : Sound T s) (plain : IsKey T cm.hash) (answer : WriteChunk) :
    Sound T (putChunk T s cm answer).1 := by
  by_cases known : ∃ i, StoredAt T s cm.hash i
  · obtain ⟨i, stored⟩ := known
    rw [putChunk_stored sound plain stored]
    split
    · exact sound.of_slots rfl rfl sound.idle
    · split
      · exact sound.of_slots rfl rfl sound.idle
      · exact sound
  · have absent := not_exists.mp known
    obtain ⟨full, before, vacant⟩ := insertionPoint_absent sound plain absent
    have sound' : Sound T { s with full := full } := sound.of_slots rfl rfl sound.idle
    unfold putChunk
    dsimp only
    split
    · exact sound.of_slots rfl rfl sound.idle
    · generalize insertionPoint T s cm.hash = point at before vacant
      obtain ⟨s₁, result⟩ := point
      obtain rfl : s₁ = { s with full := full } := before
      cases result with
      | error e => exact sound'
      | ok pos =>
        obtain ⟨i, rfl, here⟩ := vacant pos rfl
        dsimp only
        rw [if_neg (by omega), Int.toNat_natCast]
        split
        · exact sound'
        · exact sound'
        · exact insertAt_sound sound' plain absent here _

/-! ### Removals -/

theorem remove_absent (sound : Sound T s) (plain : IsKey T key) (absent : ∀ i, ¬ StoredAt T s key i)
    (deleteChunk : Bytes → Int → Bool) : remove T s key deleteChunk = (s, false) := by
  rw [remove, locate_absent sound plain absent]

/-- The slot is overwritten before the chunk store is asked. -/
theorem remove_stored (sound : Sound T s) (plain : IsKey T key) (stored : StoredAt T s key i)
    (deleteChunk : Bytes → Int → Bool) :
    remove T s key deleteChunk =
      if i * T.el ∈ s.claims then (s, false)
      else if deleteChunk key (valueAt T s.toSlots (i * T.el)) then
        ({ s with
            toSlots := s.toSlots.drop T i (toBE64 0)
            claims := s.claims.erase i
            sz := s.sz - 1
            full := false }, true)
      else ({ s with toSlots := s.toSlots.spoil T i (toBE64 0) }, false) := by
  have inside := stored.lt sound plain
  have fits : T.removed.length + (toBE64 0).length ≤ T.el := by
    rw [length_removed]
    exact room 0
  have whole := slot_fits sound.consistent inside (s := T.removed ++ toBE64 0) (by rwa [List.length_append])
  rw [List.length_append] at whole
  have fp : slice (overwrite s.kFC (i * T.el) T.removed) (i * T.el + T.hashLength) 8 =
      slice s.kFC (i * T.el + T.hashLength) 8 := by
    apply slice_overwrite_apart (by omega)
    rw [length_removed]
    exact .inr (Nat.le_refl _)
  have twice := overwrite_overwrite (a := s.kFC) (p := i * T.el) (s := T.removed) (v := toBE64 0) (by omega)
  rw [length_removed] at twice
  rw [remove, locate_stored sound plain stored]
  dsimp only
  rw [fp, twice, offset_div, sound.idle]
  rfl

theorem valueAt_spoil (sound : Sound T s) (inside : i < T.size) {j : Nat} (other : j ≠ i) {f' : Slots}
    (written : f'.kFC = (s.toSlots.spoil T i (toBE64 0)).kFC) :
    valueAt T f' (j * T.el) = valueAt T s.toSlots (j * T.el) := by
  have fits : (T.removed ++ toBE64 0).length ≤ T.el := by
    rw [List.length_append, length_removed]
    exact room 0
  exact valueAt_other sound.consistent inside fits other written

theorem remove_sound (sound : Sound T s) (plain : IsKey T key) (deleteChunk : Bytes → Int → Bool) :
    Sound T (remove T s key deleteChunk).1 := by
  by_cases known : ∃ i, StoredAt T s key i
  · obtain ⟨i, stored⟩ := known
    have inside := stored.lt sound plain
    rw [remove_stored sound plain stored]
    split
    · exact sound
    · split
      · obtain ⟨here, others⟩ := slotAt_drop sound.consistent inside (room 0)
        refine ⟨sound.consistent.drop inside (room 0), fun j key' plain' held => ?_, sound.idle⟩
        by_cases same : j = i
        · rw [same, here] at held
          cases held
        · exact sound.filtered j key' plain' ((others j same).symm.trans held)
      · have member := (slotAt_held.mp stored).1
        obtain ⟨here, others⟩ := slotAt_spoil sound.consistent inside (room 0) member
        refine ⟨sound.consistent.spoil inside (room 0) member, fun j key' plain' held => ?_, sound.idle⟩
        by_cases same : j = i
        · rw [same, here] at held
          exact absurd (Slot.held.inj held).symm plain'.not_removed
        · exact sound.filtered j key' plain' ((others j same).symm.trans held)
  · rw [remove_absent sound plain (not_exists.mp known)]
    exact sound

/-! ### Every run -/

def Op.Plain (T : Layout 1) : Op → Prop
  | .putChunk cm _ => IsKey T cm.hash
  | .put key _ => IsKey T key
  | .get key _ => IsKey T key
  | .claimKey key _ _ => IsKey T key
  | .remove key _ => IsKey T key
  | _ => True

theorem new_sound (T : Layout 1) : Sound T (.new T : State B) :=
  ⟨consistent_new T, fun _ _ _ held => (nomatch held), rfl⟩

theorem step_sound (sound : Sound T s) {op : Op} (plain : op.Plain T) : Sound T (step T s op) := by
  cases op with
  | putChunk cm answer => exact putChunk_sound sound plain answer
  | put key value => exact put_sound sound plain value
  | get key claim =>
    obtain ⟨claims, state⟩ := get_state sound.idle key claim
    show Sound T (get T s key claim).2
    rw [state]
    exact sound.of_slots rfl rfl sound.idle
  | claimKey key val ct => exact sound
  | remove key deleteChunk => exact remove_sound sound plain deleteChunk
  | activate => exact sound.of_slots rfl rfl sound.idle
  | inActive => exact sound.of_slots rfl rfl sound.idle
  | reopen => exact sound.of_slots rfl rfl rfl

theorem run_sound {ops : List Op} (plain : ∀ op ∈ ops, op.Plain T) : Sound T (run T ops : State B) := by
  induction ops using List.reverseRecOn with
  | nil => exact new_sound T
  | append_singleton ops op ih =>
    rw [run, List.foldl_append]
    exact step_sound (ih fun op' member => plain op' (List.mem_append_left _ member))
      (plain op (List.mem_append_right _ List.mem_cons_self))

/-! ### What a call should do -/

/-- A key that is in the table is not inserted again, and nothing changes but its claim. -/
def NotInserted (T : Layout 1) (s : State B) (key : Bytes) (result : State B × Except TableError InsertRecord) : Prop :=
  ∀ i, StoredAt T s key i → ∃ pos, lookup T s key = some pos ∧ result.2 = .ok ⟨false, pos⟩ ∧
    result.1 = { s with claims := insert i s.claims }

/-- No key with a claim is removed, a removal leaves the other keys, and one that fails leaves all keys. -/
structure Removes (T : Layout 1) (s : State B) (key : Bytes) (result : State B × Bool) : Prop where
  claimed : ∀ i, StoredAt T s key i → i ∈ s.claims → lookup T result.1 key = lookup T s key
  others : result.2 = true → ∀ key', IsKey T key' → key' ≠ key → lookup T result.1 key' = lookup T s key'
  failed : result.2 = false → ∀ key', IsKey T key' → lookup T result.1 key' = lookup T s key'

def Right (T : Layout 1) (s : State B) : Op → Prop
  | .putChunk cm answer => NotInserted T s cm.hash (putChunk T s cm answer)
  | .put key value => NotInserted T s key (put T s key value)
  | .remove key deleteChunk => Removes T s key (remove T s key deleteChunk)
  | _ => True

/-- The table takes entries. A chunk is put again only from the first slot; of a key that is removed, the
bit at its offset is set, or its slot has no claim and the store deletes its chunk. -/
def Meets (T : Layout 1) (s : State B) : Op → Prop
  | .putChunk cm _ => ∀ i, StoredAt T s cm.hash i → refuses T s = false ∧ i = 0
  | .put key _ => ∀ i, StoredAt T s key i → refuses T s = false
  | .remove key deleteChunk => ∀ i, StoredAt T s key i →
    i * T.el ∈ s.claims ∨ (i ∉ s.claims ∧ deleteChunk key (valueAt T s.toSlots (i * T.el)) = true)
  | _ => True

theorem put_right_iff (sound : Sound T s) (plain : IsKey T key) (value : Int) :
    NotInserted T s key (put T s key value) ↔ ∀ i, StoredAt T s key i → refuses T s = false := by
  refine forall_congr' fun i => forall_congr' fun stored => ?_
  rw [put_stored sound plain stored, lookup_stored sound plain stored]
  cases refuses T s with
  | true => exact iff_of_false (fun ⟨_, _, result, _⟩ => nomatch result) (fun no => nomatch no)
  | false => exact iff_of_true ⟨_, rfl, rfl, rfl⟩ rfl

theorem putChunk_right_iff {cm : ChunkData} (sound : Sound T s) (plain : IsKey T cm.hash) (answer : WriteChunk) :
    NotInserted T s cm.hash (putChunk T s cm answer) ↔
      ∀ i, StoredAt T s cm.hash i → refuses T s = false ∧ i = 0 := by
  refine forall_congr' fun i => forall_congr' fun stored => ?_
  rw [putChunk_stored sound plain stored, lookup_stored sound plain stored]
  cases refuses T s with
  | true => exact iff_of_false (fun ⟨_, _, result, _⟩ => nomatch result) (fun both => nomatch both.1)
  | false =>
    by_cases first : i = 0
    · rw [if_pos first]
      exact iff_of_true ⟨_, rfl, rfl, rfl⟩ ⟨rfl, first⟩
    · rw [if_neg first]
      exact iff_of_false (fun ⟨_, _, result, _⟩ => nomatch result) fun both => first both.2

theorem remove_slots (sound : Sound T s) (plain : IsKey T key) (stored : StoredAt T s key i)
    (deleteChunk : Bytes → Int → Bool) (unasked : i * T.el ∉ s.claims) :
    (∀ key', IsKey T key' → ¬ StoredAt T (remove T s key deleteChunk).1 key' i) ∧
    ∀ j, j ≠ i → (∀ key', StoredAt T (remove T s key deleteChunk).1 key' j ↔ StoredAt T s key' j) ∧
      valueAt T (remove T s key deleteChunk).1.toSlots (j * T.el) = valueAt T s.toSlots (j * T.el) := by
  have inside := stored.lt sound plain
  rw [remove_stored sound plain stored, if_neg unasked]
  split
  · obtain ⟨here, others⟩ := slotAt_drop sound.consistent inside (room 0)
    refine ⟨fun key' _ held => ?_, fun j other => ⟨fun key' => ?_, valueAt_spoil sound inside other rfl⟩⟩
    · exact nomatch here.symm.trans held
    · unfold StoredAt
      rw [others j other]
  · obtain ⟨here, others⟩ := slotAt_spoil sound.consistent inside (room 0) (slotAt_held.mp stored).1
    refine ⟨fun key' plain' held => ?_, fun j other => ⟨fun key' => ?_, valueAt_spoil sound inside other rfl⟩⟩
    · exact plain'.not_removed (Slot.held.inj (held.symm.trans here))
    · unfold StoredAt
      rw [others j other]

theorem remove_gone (sound : Sound T s) (plain : IsKey T key) (stored : StoredAt T s key i)
    (deleteChunk : Bytes → Int → Bool) (unasked : i * T.el ∉ s.claims) :
    lookup T (remove T s key deleteChunk).1 key = none := by
  obtain ⟨here, others⟩ := remove_slots sound plain stored deleteChunk unasked
  refine lookup_absent (remove_sound sound plain deleteChunk) plain fun j held => ?_
  by_cases same : j = i
  · exact here key plain (same ▸ held)
  · exact same (stored.unique sound plain (((others j same).1 key).mp held))

theorem remove_others (sound : Sound T s) (plain : IsKey T key) (stored : StoredAt T s key i)
    (deleteChunk : Bytes → Int → Bool) (unasked : i * T.el ∉ s.claims) {key' : Bytes} (plain' : IsKey T key')
    (different : key' ≠ key) : lookup T (remove T s key deleteChunk).1 key' = lookup T s key' := by
  obtain ⟨here, others⟩ := remove_slots sound plain stored deleteChunk unasked
  refine lookup_same sound (remove_sound sound plain deleteChunk) plain' (fun j held => ?_) fun j held => ?_
  · have apart : j ≠ i := by
      rintro rfl
      exact different (Slot.held.inj (held.symm.trans stored))
    exact ⟨((others j apart).1 key').mpr held, (others j apart).2⟩
  · have apart : j ≠ i := by
      rintro rfl
      exact here key' plain' held
    exact ((others j apart).1 key').mp held

theorem remove_right_iff (sound : Sound T s) (plain : IsKey T key) (deleteChunk : Bytes → Int → Bool) :
    Removes T s key (remove T s key deleteChunk) ↔ ∀ i, StoredAt T s key i →
      i * T.el ∈ s.claims ∨ (i ∉ s.claims ∧ deleteChunk key (valueAt T s.toSlots (i * T.el)) = true) := by
  constructor
  · intro removes i stored
    refine or_iff_not_imp_left.mpr fun unasked => ?_
    have gone := remove_gone sound plain stored deleteChunk unasked
    have before := lookup_stored sound plain stored
    constructor
    · intro claimed
      have kept := removes.claimed i stored claimed
      rw [gone, before] at kept
      cases kept
    · by_contra refused
      have unchanged := removes.failed (by rw [remove_stored sound plain stored, if_neg unasked, if_neg refused]) key plain
      rw [gone, before] at unchanged
      cases unchanged
  · intro meets
    by_cases known : ∃ i, StoredAt T s key i
    · obtain ⟨i, stored⟩ := known
      by_cases asked : i * T.el ∈ s.claims
      · rw [remove_stored sound plain stored, if_pos asked]
        exact ⟨fun _ _ _ => rfl, fun _ _ _ _ => rfl, fun _ _ _ => rfl⟩
      · obtain ⟨unclaimed, deletes⟩ := (meets i stored).resolve_left asked
        refine ⟨fun j other claimed => ?_, fun _ key' plain' different => ?_, fun failed => ?_⟩
        · rw [stored.unique sound plain other] at claimed
          exact absurd claimed unclaimed
        · exact remove_others sound plain stored deleteChunk asked plain' different
        · rw [remove_stored sound plain stored, if_neg asked, if_pos deletes] at failed
          cases failed
    · rw [remove_absent sound plain (not_exists.mp known)]
      exact ⟨fun _ _ _ => rfl, fun _ _ _ _ => rfl, fun _ _ _ => rfl⟩

/-- After every run, a call does what it should if and only if the condition is met. -/
theorem run_right_iff (T : Layout 1) (B : BloomFilter) {ops : List Op} (plain : ∀ op ∈ ops, op.Plain T) {op : Op}
    (call : op.Plain T) : Right T (run T ops : State B) op ↔ Meets T (run T ops : State B) op := by
  have sound : Sound T (run T ops : State B) := run_sound plain
  cases op with
  | putChunk cm answer => exact putChunk_right_iff sound call answer
  | put key value => exact put_right_iff sound call value
  | remove key deleteChunk => exact remove_right_iff sound call deleteChunk
  | get key claim => exact iff_of_true trivial trivial
  | claimKey key val ct => exact iff_of_true trivial trivial
  | activate => exact iff_of_true trivial trivial
  | inActive => exact iff_of_true trivial trivial
  | reopen => exact iff_of_true trivial trivial

/-! ### A small table -/

def smallTable : Layout 1 where
  hashLength := 16
  size := 5
  prime := by decide
  long := by decide
  mappable := by decide

def listFilter : BloomFilter where
  Filter := List Bytes
  empty := []
  put f k := if k ∈ f then f else k :: f
  mightContain f k := decide (k ∈ f)
  mightContain_put f k := by
    split
    · rename_i known
      exact decide_eq_true known
    · exact decide_eq_true List.mem_cons_self
  mightContain_kept f k k' contained := by
    have known := of_decide_eq_true contained
    split
    · exact decide_eq_true known
    · exact decide_eq_true (List.mem_cons_of_mem _ known)
  put_contained f k contained := if_pos (of_decide_eq_true contained)

def oneKey : Bytes := List.replicate 16 7

def oneCall : List Op := [.activate, .put oneKey 64]

theorem isKey_oneKey : IsKey smallTable oneKey := ⟨by decide, by decide, by decide⟩

theorem plain_oneCall : ∀ op ∈ oneCall, op.Plain smallTable := by
  intro op member
  rcases List.mem_cons.mp member with rfl | later
  · exact trivial
  · rw [List.mem_singleton.mp later]
    exact isKey_oneKey

theorem storedAt_oneCall : StoredAt smallTable (run smallTable oneCall : State listFilter) oneKey 3 := by
  unfold StoredAt
  decide +kernel

theorem storedAt_reopened : StoredAt smallTable (run smallTable (oneCall ++ [.reopen]) : State listFilter) oneKey 3 := by
  unfold StoredAt
  decide +kernel

theorem run_right_iff_oneCall :
    Right smallTable (run smallTable oneCall : State listFilter) (.put oneKey 96) ↔
      Meets smallTable (run smallTable oneCall : State listFilter) (.put oneKey 96) :=
  run_right_iff smallTable listFilter plain_oneCall isKey_oneKey

/-- A chunk that is put again, a key with a claim that is removed, and a key without one whose chunk the
store does not delete. -/
theorem run_not_right :
    ¬ Right smallTable (run smallTable oneCall : State listFilter) (.putChunk ⟨oneKey, 96, false, false⟩ .failed) ∧
    ¬ Right smallTable (run smallTable oneCall : State listFilter) (.remove oneKey fun _ _ => true) ∧
    ¬ Right smallTable (run smallTable (oneCall ++ [.reopen]) : State listFilter) (.remove oneKey fun _ _ => false) := by
  have sound : Sound smallTable (run smallTable oneCall : State listFilter) := run_sound plain_oneCall
  have sound' : Sound smallTable (run smallTable (oneCall ++ [.reopen]) : State listFilter) := by
    apply run_sound
    intro op member
    rcases List.mem_append.mp member with first | last
    · exact plain_oneCall op first
    · rw [List.mem_singleton.mp last]
      exact trivial
  have claimed : 3 ∈ (run smallTable oneCall : State listFilter).claims := by decide +kernel
  have unasked : 3 * smallTable.el ∉ (run smallTable oneCall : State listFilter).claims := by decide +kernel
  have unclaimed : 3 * smallTable.el ∉ (run smallTable (oneCall ++ [.reopen]) : State listFilter).claims := by
    decide +kernel
  refine ⟨fun right => ?_, fun right => ?_, fun right => ?_⟩
  · have first := (@putChunk_right_iff _ _ _ ⟨oneKey, 96, false, false⟩ sound isKey_oneKey .failed).mp right 3
      storedAt_oneCall
    exact absurd first.2 (by decide)
  · rcases (remove_right_iff sound isKey_oneKey _).mp right 3 storedAt_oneCall with asked | both
    · exact unasked asked
    · exact both.1 claimed
  · rcases (remove_right_iff sound' isKey_oneKey _).mp right 3 storedAt_reopened with asked | both
    · exact unclaimed asked
    · cases both.2

end EncryptedDedup.SDFS.ProgressiveLongMap
