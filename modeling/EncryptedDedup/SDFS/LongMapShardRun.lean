import EncryptedDedup.SDFS.LongMapShard

/-!
# Runs of the shards of `ShardedFileByteArrayLongMap2`

Which puts and removals keep a shard a map from keys to locations.
-/

namespace EncryptedDedup.SDFS.LongMapShard
open SlotFile
open OpenAddressing (Slot Vacant)

variable {T : Layout 2} {s s' : State} {key : Bytes} {i : Nat}

/-- The table is consistent, and a slot that was never used has no key in it. -/
structure Sound (T : Layout 2) (s : State) : Prop where
  consistent : Consistent T s.toSlots
  blank : ∀ i, slotAt T s.toSlots i = .free → ¬ IsKey T (keyAt T s.toSlots (i * T.el))

def StoredAt (T : Layout 2) (s : State) (key : Bytes) (i : Nat) : Prop := slotAt T s.toSlots i = .held key

def contents (T : Layout 2) (s : State) (key : Bytes) : Option Int :=
  (locate T s.toSlots key).map fun pos => longAt s.toSlots (pos + vp T)

theorem StoredAt.lt (sound : Sound T s) (plain : IsKey T key) (stored : StoredAt T s key i) : i < T.size :=
  (sound.consistent.table.reached key i plain stored).lt (homeOf_lt key) fun _ => nextOf_lt key

theorem StoredAt.unique (sound : Sound T s) (plain : IsKey T key) {j : Nat} (stored : StoredAt T s key i)
    (other : StoredAt T s key j) : j = i := sound.consistent.table.single key j i plain other stored

theorem contents_stored (sound : Sound T s) (plain : IsKey T key) (stored : StoredAt T s key i) :
    contents T s key = some (longAt s.toSlots (i * T.el + vp T)) := by
  rw [contents, locate_stored sound.consistent plain stored, Option.map_some]

theorem contents_absent (sound : Sound T s) (plain : IsKey T key) (absent : ∀ i, ¬ StoredAt T s key i) :
    contents T s key = none := by
  rw [contents, locate_absent sound.consistent plain absent, Option.map_none]

theorem contents_none (sound : Sound T s) (plain : IsKey T key) :
    contents T s key = none ↔ ∀ i, ¬ StoredAt T s key i := by
  refine ⟨fun nothing i stored => ?_, contents_absent sound plain⟩
  rw [contents_stored sound plain stored] at nothing
  cases nothing

theorem contents_same (sound : Sound T s) (sound' : Sound T s') (plain : IsKey T key)
    (same : ∀ i, StoredAt T s' key i ↔ StoredAt T s key i)
    (values : ∀ i, StoredAt T s key i → longAt s'.toSlots (i * T.el + vp T) = longAt s.toSlots (i * T.el + vp T)) :
    contents T s' key = contents T s key := by
  by_cases known : ∃ i, StoredAt T s key i
  · obtain ⟨i, stored⟩ := known
    rw [contents_stored sound plain stored, contents_stored sound' plain ((same i).mpr stored), values i stored]
  · have absent := not_exists.mp known
    rw [contents_absent sound plain absent, contents_absent sound' plain fun i => mt (same i).mp (absent i)]

theorem Sound.of_slots (sound : Sound T s) (slots : s'.toSlots = s.toSlots) :
    Sound T s' ∧ ∀ key, contents T s' key = contents T s key := by
  refine ⟨⟨slots ▸ sound.consistent, slots ▸ sound.blank⟩, fun key => ?_⟩
  unfold contents
  rw [slots]

theorem el_eq (T : Layout 2) : T.el = T.hashLength + 16 := rfl

/-! ### Counts -/

theorem recount_contents (sound : Sound T s) (inside : i < T.size) {n : Int}
    (bytes : s'.kFC = overwrite s.kFC (i * T.el + zl T) (toBE64 n)) (mapped : s'.mapped = s.mapped)
    (removed : s'.removed = s.removed) :
    Sound T s' ∧ ∀ key, IsKey T key → contents T s' key = contents T s key := by
  have el := el_eq T
  have fits : zl T + (toBE64 n).length ≤ T.el := by
    rw [length_toBE64, zl]
    omega
  -- A part that ends before the count, of any slot.
  have kept : ∀ j o m, o + m ≤ zl T → slice s'.kFC (j * T.el + o) m = slice s.kFC (j * T.el + o) m := by
    intro j o m before
    rw [bytes]
    by_cases same : j = i
    · subst same
      exact slice_overwrite_apart (part_fits sound.consistent inside fits) (.inl (by omega))
    · exact slice_other_part sound.consistent inside fits (by omega) same
  have keys : ∀ j, keyAt T s'.toSlots (j * T.el) = keyAt T s.toSlots (j * T.el) :=
    fun j => kept j 0 T.hashLength (by rw [zl]; omega)
  have length : s'.kFC.length = s.kFC.length := by
    rw [bytes, length_overwrite (part_fits sound.consistent inside fits)]
  obtain ⟨consistent, slots⟩ := sound.consistent.of_keys mapped removed length keys
  have sound' : Sound T s' := by
    refine ⟨consistent, fun j free => ?_⟩
    rw [keys j]
    exact sound.blank j ((slots j).symm.trans free)
  refine ⟨sound', fun key plain => contents_same sound sound' plain (fun j => ?_) fun j _ => ?_⟩
  · unfold StoredAt
    rw [slots j]
  · unfold longAt
    rw [kept j (vp T) 8 (by rw [vp, zl])]

theorem reclaim_contents (sound : Sound T s) (inside : i < T.size) (n : Int) (claims : Finset Nat) :
    Sound T { s with kFC := overwrite s.kFC (i * T.el + zl T) (toBE64 n), claims := claims } ∧ ∀ key, IsKey T key →
      contents T { s with kFC := overwrite s.kFC (i * T.el + zl T) (toBE64 n), claims := claims } key =
        contents T s key := recount_contents sound inside rfl rfl rfl

theorem claimKey_contents (sound : Sound T s) (plain : IsKey T key) (val ct : Int) :
    Sound T (claimKey T s key val ct).1 ∧
    (∀ k, IsKey T k → contents T (claimKey T s key val ct).1 k = contents T s k) ∧
    (claimKey T s key val ct).2 = decide (contents T s key = some val) := by
  unfold claimKey
  by_cases known : ∃ i, StoredAt T s key i
  · obtain ⟨i, stored⟩ := known
    rw [contents_stored sound plain stored, locate_stored sound.consistent plain stored]
    have inside := stored.lt sound plain
    dsimp only
    generalize (ct + longAt s.toSlots (i * T.el + zl T)).bmod (2 ^ 64) = ct
    generalize (if ct < 0 then 0 else ct) = ct
    by_cases same : longAt s.toSlots (i * T.el + vp T) = val
    · rw [if_pos same]
      refine ⟨?_, ?_, by simp [same]⟩
      · split
        · exact (reclaim_contents sound inside ct _).1
        · exact (reclaim_contents sound inside ct s.claims).1
      · split
        · exact (reclaim_contents sound inside ct _).2
        · exact (reclaim_contents sound inside ct s.claims).2
    · rw [if_neg same]
      exact ⟨sound, fun _ _ => rfl, by simp [same]⟩
  · have absent := not_exists.mp known
    rw [contents_absent sound plain absent, locate_absent sound.consistent plain absent]
    exact ⟨sound, fun _ _ => rfl, rfl⟩

theorem get_contents (sound : Sound T s) (plain : IsKey T key) (claim : Bool) :
    Sound T (get T s key claim).2 ∧ (∀ k, IsKey T k → contents T (get T s key claim).2 k = contents T s k) ∧
    (get T s key claim).1 = (contents T s key).getD (-1) := by
  unfold get
  by_cases known : ∃ i, StoredAt T s key i
  · obtain ⟨i, stored⟩ := known
    rw [contents_stored sound plain stored, locate_stored sound.consistent plain stored]
    have inside := stored.lt sound plain
    dsimp only
    generalize (if longAt s.toSlots (i * T.el + zl T) < 0 then 0 else longAt s.toSlots (i * T.el + zl T)) = clr
    cases claim with
    | false =>
      rw [if_neg Bool.false_ne_true, Option.getD_some]
      dsimp only
      exact ⟨sound, fun _ _ => rfl, rfl⟩
    | true =>
      rw [if_pos rfl, Option.getD_some]
      dsimp only
      obtain ⟨sound', kept⟩ := reclaim_contents sound inside (clr + 1) (insert (i * T.el / T.el) s.claims)
      exact ⟨sound', kept, rfl⟩
  · have absent := not_exists.mp known
    rw [contents_absent sound plain absent, locate_absent sound.consistent plain absent]
    exact ⟨sound, fun _ _ => rfl, rfl⟩

/-! ### Puts -/

def IsLong (x : Int) : Prop := -2 ^ 63 ≤ x ∧ x < 2 ^ 63

theorem ofBE64_long {x : Int} (long : IsLong x) : ofBE64 (toBE64 x) = x := by
  obtain ⟨low, high⟩ := long
  rw [ofBE64_toBE64]
  exact Int.bmod_eq_of_le (by omega) (by omega)

theorem room (x y : Int) : T.hashLength + (toBE64 x ++ toBE64 y).length ≤ T.el := by
  rw [List.length_append, length_toBE64, length_toBE64]
  exact Nat.le_refl (T.hashLength + 8 * 2)

theorem longAt_other (sound : Sound T s) (inside : i < T.size) {w : Bytes} (fits : w.length ≤ T.el)
    (bytes : s'.kFC = overwrite s.kFC (i * T.el) w) {j : Nat} (other : j ≠ i) :
    longAt s'.toSlots (j * T.el + vp T) = longAt s.toSlots (j * T.el + vp T) := by
  have el := el_eq T
  unfold longAt
  rw [bytes, slice_other sound.consistent inside fits (by rw [vp]; omega) other]

theorem keyAt_other (sound : Sound T s) (inside : i < T.size) {w : Bytes} (fits : w.length ≤ T.el)
    (bytes : s'.kFC = overwrite s.kFC (i * T.el) w) {j : Nat} (other : j ≠ i) :
    keyAt T s'.toSlots (j * T.el) = keyAt T s.toSlots (j * T.el) := by
  unfold keyAt
  rw [bytes]
  exact slice_other_key sound.consistent inside fits other

theorem hold_contents (sound : Sound T s) (plain : IsKey T key) (absent : ∀ j, ¬ StoredAt T s key j)
    (vacant : Vacant (slotAt T s.toSlots) (nextOf T key) (homeOf T key) i) {value : Int} (long : IsLong value) (cl : Int)
    (slots : s'.toSlots = s.toSlots.hold T i key (toBE64 value ++ toBE64 cl)) :
    Sound T s' ∧ contents T s' key = some value ∧
      ∀ k, IsKey T k → k ≠ key → contents T s' k = contents T s k := by
  have inside : i < T.size := vacant.reached.lt (homeOf_lt key) (fun j => nextOf_lt key)
  have fits : (key ++ (toBE64 value ++ toBE64 cl)).length ≤ T.el := by
    rw [List.length_append, plain.length]
    exact room value cl
  have bytes : s'.kFC = overwrite s.kFC (i * T.el) (key ++ (toBE64 value ++ toBE64 cl)) := by
    rw [slots]
    rfl
  obtain ⟨here, others⟩ := slotAt_hold sound.consistent plain inside (room value cl)
  rw [← slots] at here others
  have sound' : Sound T s' := by
    refine ⟨slots ▸ sound.consistent.hold plain vacant absent (room value cl), fun j free => ?_⟩
    have other : j ≠ i := by
      rintro rfl
      rw [here] at free
      cases free
    rw [keyAt_other sound inside fits bytes other]
    exact sound.blank j ((others j other).symm.trans free)
  refine ⟨sound', ?_, fun k plain' different => contents_same sound sound' plain' (fun j => ?_) fun j held => ?_⟩
  · have own := (slice_own sound.consistent inside fits).2
    rw [plain.length] at own
    have first : slice s'.kFC (i * T.el + vp T) 8 = toBE64 value := by
      have front := congrArg (List.take 8) own
      rw [List.take_left' (length_toBE64 value), slice, List.take_take, List.length_append, length_toBE64,
        length_toBE64] at front
      rw [bytes]
      exact front
    rw [contents_stored sound' plain here, longAt, first, ofBE64_long long]
  · by_cases same : j = i
    · subst same
      refine iff_of_false (fun held => different (Slot.held.inj (here.symm.trans held)).symm) fun held => ?_
      exact vacant.ne_held held
    · unfold StoredAt
      rw [others j same]
  · have other : j ≠ i := by
      rintro rfl
      exact vacant.ne_held held
    exact longAt_other sound inside fits bytes other

theorem put_stored (sound : Sound T s) (plain : IsKey T key) (stored : StoredAt T s key i) (value cl : Int) :
    Sound T (put T s key value cl true).1 ∧
    (∀ k, IsKey T k → contents T (put T s key value cl true).1 k = contents T s k) ∧
    ∀ pos, (put T s key value cl true).2 ≠ .ok ⟨true, pos⟩ := by
  have inside := stored.lt sound plain
  unfold put
  split
  · exact ⟨sound, fun _ _ => rfl, fun _ same => nomatch same⟩
  · obtain ⟨mapped, -⟩ := slotAt_held.mp stored
    have unremoved : i ∉ s.removed := fun member => sound.consistent.apart i member mapped
    have npos : (-(-((i * T.el : Nat) : Int) - 1) - 1).toNat = i * T.el := by omega
    rw [insertionIndex_stored sound.consistent plain stored]
    dsimp only
    rw [if_pos (by omega), npos, offset_div, Finset.insert_eq_of_mem mapped, Finset.erase_eq_of_notMem unremoved]
    obtain ⟨sound', kept⟩ := reclaim_contents sound inside ((if longAt s.toSlots (i * T.el + zl T) < 0 then 0 else
      longAt s.toSlots (i * T.el + zl T)) + if cl ≤ 0 then 1 else cl) (insert i s.claims)
    refine ⟨sound', kept, fun pos same => ?_⟩
    have inserted := congrArg InsertRecord.inserted (Except.ok.inj same)
    cases inserted

theorem put_absent (sound : Sound T s) (plain : IsKey T key) (absent : ∀ i, ¬ StoredAt T s key i) {value : Int}
    (long : IsLong value) (cl : Int) :
    ((put T s key value cl true).1 = s ∧ ∀ pos, (put T s key value cl true).2 ≠ .ok ⟨true, pos⟩) ∨
    ((put T s key value cl true).2 = .ok ⟨true, value⟩ ∧ Sound T (put T s key value cl true).1 ∧
      contents T (put T s key value cl true).1 key = some value ∧
      ∀ k, IsKey T k → k ≠ key → contents T (put T s key value cl true).1 k = contents T s k) := by
  unfold put
  split
  · exact .inl ⟨rfl, fun _ same => nomatch same⟩
  · cases result : insertionIndex T s.toSlots key true with
    | error e => exact .inl ⟨rfl, fun _ same => nomatch same⟩
    | ok pos =>
      obtain ⟨i, rfl, vacant⟩ := insertionIndex_absent sound.consistent plain absent result
      dsimp only
      rw [if_neg (by omega), Int.toNat_natCast, offset_div]
      exact .inr ⟨rfl, hold_contents sound plain absent vacant long _ rfl⟩

/-- A map that does not refuse the key takes it, or the search for a slot fails. -/
theorem put_takes_iff (sound : Sound T s) (plain : IsKey T key) (absent : ∀ i, ¬ StoredAt T s key i)
    (accepts : refuses T s = false) (value cl : Int) :
    (put T s key value cl true).2 = .ok ⟨true, value⟩ ↔
      (∃ i < T.size, i ∉ s.mapped) ∧ (T.size = 2 → slotAt T s.toSlots (homeOf T key) = .free) := by
  rw [← insertionIndex_ok_iff sound.consistent plain absent true]
  unfold put
  rw [accepts]
  cases result : insertionIndex T s.toSlots key true with
  | error e => exact iff_of_false (fun same => nomatch same) fun ⟨_, same⟩ => nomatch same
  | ok pos =>
    obtain ⟨i, rfl, -⟩ := insertionIndex_absent sound.consistent plain absent result
    dsimp only
    rw [if_neg Bool.false_ne_true, if_neg (by omega)]
    exact iff_of_true rfl ⟨_, rfl⟩

/-! ### Updates -/

theorem update_absent (sound : Sound T s) (plain : IsKey T key) (absent : ∀ i, ¬ StoredAt T s key i) (value : Int) :
    update T s key value = (s, false) := by
  rw [update, locate_absent sound.consistent plain absent]

theorem update_stored (sound : Sound T s) (plain : IsKey T key) (stored : StoredAt T s key i) {value : Int}
    (long : IsLong value) :
    (update T s key value).2 = true ∧ Sound T (update T s key value).1 ∧
    contents T (update T s key value).1 key = some value ∧
    ∀ k, IsKey T k → k ≠ key → contents T (update T s key value).1 k = contents T s k := by
  have inside := stored.lt sound plain
  have el := el_eq T
  have fits : (key ++ toBE64 value).length ≤ T.el := by
    rw [List.length_append, plain.length, length_toBE64]
    omega
  have own := slice_own sound.consistent inside fits
  rw [plain.length] at own
  -- First the bytes of the slot, then the bits.
  have keys : ∀ j, slice (overwrite s.kFC (i * T.el) (key ++ toBE64 value)) (j * T.el) T.hashLength =
      keyAt T s.toSlots (j * T.el) := by
    intro j
    by_cases same : j = i
    · rw [same, own.1]
      exact (slotAt_held.mp stored).2.symm
    · exact slice_other_key sound.consistent inside fits same
  have length : (overwrite s.kFC (i * T.el) (key ++ toBE64 value)).length = s.kFC.length :=
    length_overwrite (slot_fits sound.consistent inside fits)
  obtain ⟨consistent, slots⟩ := @Consistent.of_keys _ _ _ sound.consistent
    ⟨overwrite s.kFC (i * T.el) (key ++ toBE64 value), s.mapped, s.removed⟩ rfl rfl length keys
  have blank : ∀ j, slotAt T ⟨overwrite s.kFC (i * T.el) (key ++ toBE64 value), s.mapped, s.removed⟩ j = .free →
      ¬ IsKey T (slice (overwrite s.kFC (i * T.el) (key ++ toBE64 value)) (j * T.el) T.hashLength) := by
    intro j free
    rw [keys j]
    exact sound.blank j ((slots j).symm.trans free)
  obtain ⟨marked, held, free⟩ := consistent.mark (i := i * T.el) (blank _)
  have sound' : Sound T (update T s key value).1 := by
    rw [update, locate_stored sound.consistent plain stored]
    exact ⟨marked, fun j unused => blank j (free j unused)⟩
  have stays : ∀ k, IsKey T k → ∀ j, StoredAt T (update T s key value).1 k j ↔ StoredAt T s k j := by
    intro k plain' j
    rw [update, locate_stored sound.consistent plain stored]
    refine (held j k plain').trans ?_
    rw [slots j]
    rfl
  have values : (update T s key value).1.kFC = overwrite s.kFC (i * T.el) (key ++ toBE64 value) := by
    rw [update, locate_stored sound.consistent plain stored]
  refine ⟨?_, sound', ?_, fun k plain' different => ?_⟩
  · rw [update, locate_stored sound.consistent plain stored]
  · rw [contents_stored sound' plain ((stays key plain i).mpr stored), longAt, values]
    rw [length_toBE64] at own
    rw [vp, own.2, ofBE64_long long]
  · refine contents_same sound sound' plain' (stays k plain') fun j there => ?_
    have other : j ≠ i := by
      rintro rfl
      exact different (Slot.held.inj (there.symm.trans stored))
    exact longAt_other sound inside fits values other

/-! ### Removals -/

def cleared : Bytes := toBE64 0 ++ toBE64 0

theorem cleared_room : T.hashLength + cleared.length ≤ T.el := room 0 0

theorem spoil_fits (T : Layout 2) : (T.removed ++ cleared).length ≤ T.el := by
  rw [List.length_append, length_removed]
  exact cleared_room

theorem remove_absent (sound : Sound T s) (plain : IsKey T key) (absent : ∀ i, ¬ StoredAt T s key i)
    (deleteChunk : Bytes → Int → Bool) : remove T s key deleteChunk = (s, false) := by
  rw [remove, locate_absent sound.consistent plain absent]

theorem next_offset (i : Nat) : i * T.el + T.el = (i + 1) * T.el := (Nat.succ_mul i T.el).symm

/-- Eight bytes more are written than the slot has. -/
theorem remove_stored (sound : Sound T s) (plain : IsKey T key) (stored : StoredAt T s key i)
    (deleteChunk : Bytes → Int → Bool) :
    remove T s key deleteChunk =
      if i ∈ s.claims then (s, false)
      else if T.size ≤ i + 1 then ({ s with kFC := (s.toSlots.spoil T i cleared).kFC }, false)
      else if deleteChunk key (longAt s.toSlots (i * T.el + vp T)) then
        ({ s with
            kFC := overwrite (s.toSlots.spoil T i cleared).kFC ((i + 1) * T.el) (toBE64 0)
            claims := s.claims.erase i
            mapped := s.mapped.erase i
            removed := insert i s.removed }, true)
      else ({ s with kFC := overwrite (s.toSlots.spoil T i cleared).kFC ((i + 1) * T.el) (toBE64 0) }, false) := by
  have inside := stored.lt sound plain
  have el := el_eq T
  have whole := slot_fits sound.consistent inside (spoil_fits T)
  have sixteen : cleared.length = 16 := by rw [cleared, List.length_append, length_toBE64]
  have patterns := length_removed T
  have words := length_toBE64 0
  rw [List.length_append, sixteen] at whole
  have fp : slice (overwrite s.kFC (i * T.el) T.removed) (i * T.el + vp T) 8 = slice s.kFC (i * T.el + vp T) 8 := by
    apply slice_overwrite_apart (by omega)
    exact .inr (by rw [vp]; omega)
  have thrice : overwrite (overwrite (overwrite s.kFC (i * T.el) T.removed) (i * T.el + vp T) (toBE64 0))
      (i * T.el + zl T) (toBE64 0) = (s.toSlots.spoil T i cleared).kFC := by
    have second := overwrite_overwrite (a := overwrite s.kFC (i * T.el) T.removed) (p := i * T.el + vp T)
      (s := toBE64 0) (v := toBE64 0) (by rw [length_overwrite (by omega), vp]; omega)
    have first := overwrite_overwrite (a := s.kFC) (p := i * T.el) (s := T.removed) (v := toBE64 0 ++ toBE64 0)
      (by rw [List.length_append]; omega)
    rw [patterns] at first
    rw [words, Nat.add_assoc] at second
    exact second.trans first
  have length : (s.toSlots.spoil T i cleared).kFC.length = T.size * T.el := by
    rw [Slots.spoil, length_overwrite (by rw [List.length_append]; omega), sound.consistent.length]
  have last : (s.toSlots.spoil T i cleared).kFC.length < (i + 1) * T.el + 8 ↔ T.size ≤ i + 1 := by
    rw [length]
    constructor
    · intro short
      by_contra more
      have above : (i + 1 + 1) * T.el ≤ T.size * T.el := Nat.mul_le_mul_right _ (by omega)
      rw [Nat.succ_mul] at above
      omega
    · intro none_behind
      have above : T.size * T.el ≤ (i + 1) * T.el := Nat.mul_le_mul_right _ none_behind
      omega
  rw [remove, locate_stored sound.consistent plain stored]
  dsimp only
  rw [fp, thrice, offset_div, next_offset]
  simp only [last]
  rfl

theorem behind_fits (sound : Sound T s) (behind : i + 1 < T.size) :
    (i + 1) * T.el + (toBE64 0).length ≤ (s.toSlots.spoil T i cleared).kFC.length := by
  have el := el_eq T
  have above : (i + 1 + 1) * T.el ≤ T.size * T.el := Nat.mul_le_mul_right _ behind
  rw [Nat.succ_mul] at above
  rw [Slots.spoil, length_overwrite (slot_fits sound.consistent (Nat.lt_of_succ_lt behind) (spoil_fits T)),
    sound.consistent.length, length_toBE64]
  omega

def ClearBehind (T : Layout 2) (s : State) (i : Nat) : Prop := slice s.kFC ((i + 1) * T.el) 8 = toBE64 0

theorem spoil_behind (sound : Sound T s) (behind : i + 1 < T.size) (clear : ClearBehind T s i) :
    overwrite (s.toSlots.spoil T i cleared).kFC ((i + 1) * T.el) (toBE64 0) = (s.toSlots.spoil T i cleared).kFC := by
  have el := el_eq T
  have inside : i < T.size := Nat.lt_of_succ_lt behind
  have fits := spoil_fits T
  have same : slice (s.toSlots.spoil T i cleared).kFC ((i + 1) * T.el) 8 = toBE64 0 := by
    refine Eq.trans ?_ clear
    exact slice_overwrite_apart (slot_fits sound.consistent inside fits) (.inr (by rw [← next_offset]; omega))
  have identity := overwrite_slice (behind_fits sound behind)
  rwa [length_toBE64, same] at identity

/-! ### What a call should do -/

/-- Fewer entries than slots: some slot has no key. -/
def Room (T : Layout 2) (s : State) : Prop := ∃ i < T.size, ∀ key, IsKey T key → ¬ StoredAt T s key i

/-- A removal leaves the key, the location, the claim and the bits of every other slot; one that fails leaves
the shard. -/
structure Removes (T : Layout 2) (s : State) (key : Bytes) (result : State × Bool) : Prop where
  others : result.2 = true → ∀ j < T.size, ¬ StoredAt T s key j →
    slice result.1.kFC (j * T.el) T.el = slice s.kFC (j * T.el) T.el ∧ (j ∈ result.1.claims ↔ j ∈ s.claims) ∧
    (j ∈ result.1.mapped ↔ j ∈ s.mapped) ∧ (j ∈ result.1.removed ↔ j ∈ s.removed)
  failed : result.2 = false → result.1 = s

/-- The locations that were stored last and were not removed since. -/
def remember (T : Layout 2) (s : State) (m : Bytes → Option Int) : Op → Bytes → Option Int
  | .put key value cl =>
    if (put T s key value cl true).2 = .ok ⟨true, value⟩ then Function.update m key (some value) else m
  | .update key value => if (update T s key value).2 then Function.update m key (some value) else m
  | .remove key deleteChunk => if (remove T s key deleteChunk).2 then Function.update m key none else m
  | _ => m

/-- What a call returns to a caller that knows what is stored. -/
def Answers (T : Layout 2) (s : State) (m : Bytes → Option Int) : Op → Prop
  | .put key value cl => m key = none → Room T s → refuses T s = false →
    (put T s key value cl true).2 = .ok ⟨true, value⟩
  | .get key claim => (get T s key claim).1 = (m key).getD (-1)
  | .update key value => (update T s key value).2 = (m key).isSome
  | .claimKey key val ct => (claimKey T s key val ct).2 = decide (m key = some val)
  | .remove key deleteChunk => Removes T s key (remove T s key deleteChunk)
  | _ => True

structure Right (T : Layout 2) (s : State) (m : Bytes → Option Int) (op : Op) : Prop where
  answers : Answers T s m op
  sees : ∀ key, IsKey T key → contents T (step T s op) key = remember T s m op key

/-- A slot that has no key is not mapped, and in a table of two slots it is the home of the key; a key that is
removed has a claim, or else its slot has zeros behind it in the shard and the store deletes its chunk. -/
def Meets (T : Layout 2) (s : State) : Op → Prop
  | .put key _ _ => (∀ i, ¬ StoredAt T s key i) → Room T s → refuses T s = false →
    (∃ i < T.size, i ∉ s.mapped) ∧ (T.size = 2 → slotAt T s.toSlots (homeOf T key) = .free)
  | .remove key deleteChunk => ∀ i, StoredAt T s key i → i ∈ s.claims ∨
    (i + 1 < T.size ∧ ClearBehind T s i ∧ deleteChunk key (longAt s.toSlots (i * T.el + vp T)) = true)
  | _ => True

/-- The keys of a call are keys, and its locations are of the type `long`. -/
def Op.Plain (T : Layout 2) : Op → Prop
  | .put key value _ => IsKey T key ∧ IsLong value
  | .get key _ => IsKey T key
  | .update key value => IsKey T key ∧ IsLong value
  | .claimKey key _ _ => IsKey T key
  | .remove key _ => IsKey T key
  | _ => True

/-- The state knows what is stored. -/
structure Knows (T : Layout 2) (s : State) (m : Bytes → Option Int) : Prop where
  sound : Sound T s
  same : ∀ key, IsKey T key → contents T s key = m key

variable {m : Bytes → Option Int}

theorem Knows.absent (knows : Knows T s m) (plain : IsKey T key) : m key = none ↔ ∀ i, ¬ StoredAt T s key i := by
  rw [← knows.same key plain]
  exact contents_none knows.sound plain

theorem Knows.change (knows : Knows T s m) {v : Option Int} (own : contents T s' key = v)
    (others : ∀ k, IsKey T k → k ≠ key → contents T s' k = contents T s k) :
    ∀ k, IsKey T k → contents T s' k = Function.update m key v k := by
  intro k plain
  by_cases same : k = key
  · rw [same, own, Function.update_self]
  · rw [others k plain same, knows.same k plain, Function.update_of_ne same]

theorem put_knows (knows : Knows T s m) (plain : IsKey T key) {value : Int} (long : IsLong value) (cl : Int) :
    Sound T (put T s key value cl true).1 ∧
    ∀ k, IsKey T k → contents T (put T s key value cl true).1 k = remember T s m (.put key value cl) k := by
  rw [remember]
  by_cases known : ∃ i, StoredAt T s key i
  · obtain ⟨i, stored⟩ := known
    obtain ⟨sound', kept, fresh⟩ := put_stored knows.sound plain stored value cl
    rw [if_neg (fresh value)]
    exact ⟨sound', fun k plain' => (kept k plain').trans (knows.same k plain')⟩
  · rcases put_absent knows.sound plain (not_exists.mp known) long cl with
      ⟨state, fresh⟩ | ⟨result, sound', own, others⟩
    · rw [if_neg (fresh value), state]
      exact ⟨knows.sound, knows.same⟩
    · rw [if_pos result]
      exact ⟨sound', knows.change own others⟩

theorem update_knows (knows : Knows T s m) (plain : IsKey T key) {value : Int} (long : IsLong value) :
    (update T s key value).2 = (m key).isSome ∧ Sound T (update T s key value).1 ∧
    ∀ k, IsKey T k → contents T (update T s key value).1 k = remember T s m (.update key value) k := by
  rw [remember]
  by_cases known : ∃ i, StoredAt T s key i
  · obtain ⟨i, stored⟩ := known
    obtain ⟨result, sound', own, others⟩ := update_stored knows.sound plain stored long
    rw [if_pos result, result, ← knows.same key plain, contents_stored knows.sound plain stored]
    exact ⟨rfl, sound', knows.change own others⟩
  · have absent := not_exists.mp known
    rw [update_absent knows.sound plain absent, if_neg Bool.false_ne_true, (knows.absent plain).mpr absent]
    exact ⟨rfl, knows.sound, knows.same⟩

theorem spoiled (sound : Sound T s) (inside : i < T.size) {bytes : Bytes} (other : bytes = (s.toSlots.spoil T i cleared).kFC)
    {j : Nat} (apart : j ≠ i) : slice bytes (j * T.el) T.el = slice s.kFC (j * T.el) T.el := by
  have fits := spoil_fits T
  have same := slice_other (o := 0) (n := T.el) sound.consistent inside fits (Nat.zero_add _).le apart
  rw [Nat.add_zero] at same
  rw [other]
  exact same

theorem remove_drops (sound : Sound T s) (plain : IsKey T key) (stored : StoredAt T s key i)
    {deleteChunk : Bytes → Int → Bool} (unclaimed : i ∉ s.claims) (behind : i + 1 < T.size) (clear : ClearBehind T s i)
    (deletes : deleteChunk key (longAt s.toSlots (i * T.el + vp T)) = true) :
    remove T s key deleteChunk =
      ({ s with toSlots := s.toSlots.drop T i cleared, claims := s.claims.erase i }, true) := by
  rw [remove_stored sound plain stored, if_neg unclaimed, if_neg (by omega), if_pos deletes, spoil_behind sound behind clear]
  rfl

theorem drop_contents (sound : Sound T s) (plain : IsKey T key) (stored : StoredAt T s key i)
    (slots : s'.toSlots = s.toSlots.drop T i cleared) :
    Sound T s' ∧ contents T s' key = none ∧ ∀ k, IsKey T k → k ≠ key → contents T s' k = contents T s k := by
  have inside := stored.lt sound plain
  have fits := spoil_fits T
  have bytes : s'.kFC = overwrite s.kFC (i * T.el) (T.removed ++ cleared) := by
    rw [slots]
    rfl
  obtain ⟨here, others⟩ := slotAt_drop sound.consistent inside cleared_room
  rw [← slots] at here others
  have sound' : Sound T s' := by
    refine ⟨slots ▸ sound.consistent.drop inside cleared_room, fun j free => ?_⟩
    have other : j ≠ i := by
      rintro rfl
      rw [here] at free
      cases free
    rw [keyAt_other sound inside fits bytes other]
    exact sound.blank j ((others j other).symm.trans free)
  have stays : ∀ k j, StoredAt T s' k j ↔ StoredAt T s k j ∧ j ≠ i := by
    intro k j
    by_cases same : j = i
    · rw [same]
      exact iff_of_false (fun held => nomatch here.symm.trans held) fun both => both.2 rfl
    · unfold StoredAt
      rw [others j same]
      exact (and_iff_left same).symm
  refine ⟨sound', contents_absent sound' plain fun j held => ?_, fun k plain' different => ?_⟩
  · obtain ⟨there, other⟩ := (stays key j).mp held
    exact other (stored.unique sound plain there)
  · have elsewhere : ∀ j, StoredAt T s k j → j ≠ i := by
      rintro j there rfl
      exact different (Slot.held.inj (there.symm.trans stored))
    refine contents_same sound sound' plain' (fun j => ?_) fun j there => ?_
    · rw [stays k j]
      exact and_iff_left_of_imp (elsewhere j)
    · exact longAt_other sound inside fits bytes (elsewhere j there)

theorem remove_right (knows : Knows T s m) (plain : IsKey T key) {deleteChunk : Bytes → Int → Bool}
    (meets : Meets T s (.remove key deleteChunk)) :
    Right T s m (.remove key deleteChunk) ∧ Sound T (remove T s key deleteChunk).1 := by
  by_cases known : ∃ i, StoredAt T s key i
  · obtain ⟨i, stored⟩ := known
    by_cases claimed : i ∈ s.claims
    · have result : remove T s key deleteChunk = (s, false) := by
        rw [remove_stored knows.sound plain stored, if_pos claimed]
      refine ⟨⟨?_, fun k plain' => ?_⟩, ?_⟩
      · rw [Answers, result]
        exact ⟨fun succeeded => (nomatch succeeded), fun _ => rfl⟩
      · rw [step, remember, result, if_neg Bool.false_ne_true]
        exact knows.same k plain'
      · rw [result]
        exact knows.sound
    · obtain ⟨behind, clear, deletes⟩ := (meets i stored).resolve_left claimed
      have result := remove_drops knows.sound plain stored claimed behind clear deletes
      obtain ⟨sound', gone, others⟩ := drop_contents knows.sound plain stored
        (congrArg (fun r => r.1.toSlots) result)
      refine ⟨⟨?_, fun k plain' => ?_⟩, sound'⟩
      · rw [Answers, result]
        refine ⟨fun _ j _ absent => ?_, fun failed => (nomatch failed)⟩
        have apart : j ≠ i := by
          rintro rfl
          exact absent stored
        refine ⟨spoiled knows.sound (stored.lt knows.sound plain) rfl apart, ?_, ?_, ?_⟩
        · exact Finset.mem_erase.trans (and_iff_right apart)
        · exact Finset.mem_erase.trans (and_iff_right apart)
        · exact Finset.mem_insert.trans (or_iff_right apart)
      · rw [step, remember, if_pos (by rw [result])]
        exact knows.change gone others k plain'
  · have result := remove_absent knows.sound plain (not_exists.mp known) deleteChunk
    refine ⟨⟨?_, fun k plain' => ?_⟩, ?_⟩
    · rw [Answers, result]
      exact ⟨fun succeeded => (nomatch succeeded), fun _ => rfl⟩
    · rw [step, remember, result, if_neg Bool.false_ne_true]
      exact knows.same k plain'
    · rw [result]
      exact knows.sound

theorem spoil_changes (sound : Sound T s) (plain : IsKey T key) (stored : StoredAt T s key i) :
    (s.toSlots.spoil T i cleared).kFC ≠ s.kFC ∧
    (i + 1 < T.size → overwrite (s.toSlots.spoil T i cleared).kFC ((i + 1) * T.el) (toBE64 0) ≠ s.kFC) := by
  have inside := stored.lt sound plain
  have el := el_eq T
  have key_there := (slotAt_held.mp stored).2
  obtain ⟨pattern, -⟩ := keyAt_spoil sound.consistent inside (cleared_room (T := T))
  constructor
  · intro same
    rw [keyAt, same] at pattern
    exact plain.not_removed (key_there.symm.trans pattern)
  · intro behind same
    have fits := spoil_fits T
    have kept : slice (overwrite (s.toSlots.spoil T i cleared).kFC ((i + 1) * T.el) (toBE64 0)) (i * T.el) T.hashLength =
        T.removed := by
      refine Eq.trans ?_ pattern
      exact slice_overwrite_apart (behind_fits sound behind) (.inl (by rw [← next_offset]; omega))
    rw [same] at kept
    exact plain.not_removed (key_there.symm.trans kept)

theorem remove_meets (sound : Sound T s) (plain : IsKey T key) {deleteChunk : Bytes → Int → Bool}
    (removes : Removes T s key (remove T s key deleteChunk)) : Meets T s (.remove key deleteChunk) := by
  intro i stored
  refine or_iff_not_imp_left.mpr fun unclaimed => ?_
  have inside := stored.lt sound plain
  obtain ⟨alone, spilled⟩ := spoil_changes sound plain stored
  have result := remove_stored sound plain stored deleteChunk
  rw [if_neg unclaimed] at result
  by_cases behind : i + 1 < T.size
  · rw [if_neg (by omega)] at result
    by_cases deletes : deleteChunk key (longAt s.toSlots (i * T.el + vp T)) = true
    · refine ⟨behind, ?_, deletes⟩
      rw [if_pos deletes] at result
      have elsewhere : ¬ StoredAt T s key (i + 1) := fun there => absurd (stored.unique sound plain there) (by omega)
      obtain ⟨bytes, -⟩ := removes.others (by rw [result]) (i + 1) behind elsewhere
      rw [result] at bytes
      have zeros := slice_overwrite (behind_fits sound behind)
      rw [length_toBE64] at zeros
      have word : 8 ≤ T.el := by
        have el := el_eq T
        omega
      exact (slice_front bytes word).symm.trans zeros
    · rw [if_neg deletes] at result
      have unchanged := removes.failed (by rw [result])
      rw [result] at unchanged
      exact absurd (congrArg (fun state : State => state.kFC) unchanged) (spilled behind)
  · rw [if_pos (by omega)] at result
    have unchanged := removes.failed (by rw [result])
    rw [result] at unchanged
    exact absurd (congrArg (fun state : State => state.kFC) unchanged) alone

/-! ### Every run -/

/-- Runs whose calls all meet the condition, with what is stored. -/
inductive Run (T : Layout 2) : State → (Bytes → Option Int) → Prop
  | new : Run T (.new T) fun _ => none
  | step {s m op} : Run T s m → op.Plain T → Meets T s op → Run T (step T s op) (remember T s m op)

theorem new_knows (T : Layout 2) : Knows T (.new T) fun _ => none := by
  have absent : ∀ key i, ¬ StoredAt T (.new T) key i := fun _ _ held => nomatch held
  have sound : Sound T (.new T) := by
    refine ⟨consistent_new T, fun i _ plain => ?_⟩
    have zeros : keyAt T (Slots.new T) (i * T.el) = List.replicate (min T.hashLength (T.size * T.el - i * T.el)) 0 := by
      unfold keyAt slice Slots.new
      rw [List.drop_replicate, List.take_replicate]
    have bytes := plain.length
    have not_free := plain.not_free
    have blank : keyAt T (State.new T).toSlots (i * T.el) = keyAt T (Slots.new T) (i * T.el) := rfl
    rw [blank, zeros, List.length_replicate] at bytes
    rw [blank, zeros, bytes] at not_free
    exact not_free rfl
  exact ⟨sound, fun key plain => contents_absent sound plain (absent key)⟩

/-- A call that meets the condition does what it should. -/
theorem step_right (knows : Knows T s m) {op : Op} (plain : op.Plain T) (meets : Meets T s op) :
    Right T s m op ∧ Sound T (step T s op) := by
  cases op with
  | put key value cl =>
    obtain ⟨sound', sees⟩ := put_knows knows plain.1 plain.2 cl
    refine ⟨⟨fun unknown room accepts => ?_, sees⟩, sound'⟩
    have absent := (knows.absent plain.1).mp unknown
    exact (put_takes_iff knows.sound plain.1 absent accepts value cl).mpr (meets absent room accepts)
  | get key claim =>
    obtain ⟨sound', kept, result⟩ := get_contents knows.sound plain claim
    refine ⟨⟨?_, fun k plain' => (kept k plain').trans (knows.same k plain')⟩, sound'⟩
    rw [Answers, result, knows.same key plain]
  | update key value =>
    obtain ⟨result, sound', sees⟩ := update_knows knows plain.1 plain.2
    exact ⟨⟨result, sees⟩, sound'⟩
  | claimKey key val ct =>
    obtain ⟨sound', kept, result⟩ := claimKey_contents knows.sound plain val ct
    refine ⟨⟨?_, fun k plain' => (kept k plain').trans (knows.same k plain')⟩, sound'⟩
    rw [Answers, result, knows.same key plain]
  | remove key deleteChunk => exact remove_right knows plain meets
  | reopen =>
    obtain ⟨sound', kept⟩ := knows.sound.of_slots (show (step T s .reopen).toSlots = s.toSlots from rfl)
    exact ⟨⟨trivial, fun k plain' => (kept k).trans (knows.same k plain')⟩, sound'⟩
  | setActive active =>
    obtain ⟨sound', kept⟩ := knows.sound.of_slots (show (step T s (.setActive active)).toSlots = s.toSlots from rfl)
    exact ⟨⟨trivial, fun k plain' => (kept k).trans (knows.same k plain')⟩, sound'⟩
  | setFull full =>
    obtain ⟨sound', kept⟩ := knows.sound.of_slots (show (step T s (.setFull full)).toSlots = s.toSlots from rfl)
    exact ⟨⟨trivial, fun k plain' => (kept k).trans (knows.same k plain')⟩, sound'⟩

theorem run_knows (run : Run T s m) : Knows T s m := by
  induction run with
  | new => exact new_knows T
  | step _ plain meets ih =>
    obtain ⟨right, sound⟩ := step_right ih plain meets
    exact ⟨sound, right.sees⟩

theorem step_meets (knows : Knows T s m) {op : Op} (plain : op.Plain T) (right : Right T s m op) : Meets T s op := by
  cases op with
  | put key value cl =>
    intro absent room accepts
    have taken := right.answers ((knows.absent plain.1).mpr absent) room accepts
    exact (put_takes_iff knows.sound plain.1 absent accepts value cl).mp taken
  | remove key deleteChunk => exact remove_meets knows.sound plain right.answers
  | _ => exact trivial

/-- In every run whose calls meet the condition a shard is a map, and the next call does what it should if and
only if it meets the condition too. -/
theorem run_map_iff (run : Run T s m) :
    (∀ key, IsKey T key → contents T s key = m key) ∧ ∀ op, op.Plain T → (Right T s m op ↔ Meets T s op) := by
  have knows := run_knows run
  refine ⟨knows.same, fun op plain => ⟨step_meets knows plain, fun meets => ?_⟩⟩
  exact (step_right knows plain meets).1

/-! ### A small shard -/

def smallShard : Layout 2 where
  hashLength := 16
  size := 5
  prime := Nat.prime_five
  long := Nat.le_add_right 12 4
  mappable := by decide

def thirdKey : Bytes := List.replicate 16 7

/-- A key whose home is slot 4, the last one. -/
def lastKey : Bytes := List.replicate 16 6

theorem isKey_thirdKey : IsKey smallShard thirdKey := ⟨by decide, by decide, by decide⟩

theorem isKey_lastKey : IsKey smallShard lastKey := ⟨by decide, by decide, by decide⟩

def opened : State := step smallShard (.new smallShard) (.setActive true)

def oneIn : State := step smallShard opened (.put lastKey 64 1)

def bothIn : State := step smallShard oneIn (.put thirdKey 96 1)

def reopened : State := step smallShard bothIn .reopen

def known : Bytes → Option Int :=
  remember smallShard oneIn (remember smallShard opened (fun _ => none) (.put lastKey 64 1)) (.put thirdKey 96 1)

theorem run_bothIn : Run smallShard bothIn known := by
  have first : Run smallShard opened fun _ => none := .step .new trivial trivial
  have second : Run smallShard oneIn _ :=
    .step first ⟨isKey_lastKey, by decide, by decide⟩ fun _ _ _ =>
      ⟨⟨0, by decide, by decide⟩, fun two => absurd two (by decide)⟩
  exact .step second ⟨isKey_thirdKey, by decide, by decide⟩ fun _ _ _ =>
    ⟨⟨0, by decide, by decide +kernel⟩, fun two => absurd two (by decide)⟩

theorem run_map_iff_bothIn : (∀ key, IsKey smallShard key → contents smallShard bothIn key = known key) ∧
    ∀ op, op.Plain smallShard → (Right smallShard bothIn known op ↔ Meets smallShard bothIn op) :=
  run_map_iff run_bothIn

theorem run_reopened : Run smallShard reopened known := .step run_bothIn trivial trivial

/-- A removal of the key in the last slot, one of the key before it, and one whose chunk the store keeps. -/
theorem reopened_not_right :
    Run smallShard reopened known ∧
    ¬ Right smallShard reopened known (.remove lastKey fun _ _ => true) ∧
    ¬ Right smallShard reopened known (.remove thirdKey fun _ _ => true) ∧
    ¬ Right smallShard reopened known (.remove thirdKey fun _ _ => false) := by
  have sound := (run_knows run_reopened).sound
  have third : StoredAt smallShard reopened thirdKey 3 := by
    unfold StoredAt
    decide +kernel
  have last : StoredAt smallShard reopened lastKey 4 := by
    unfold StoredAt
    decide +kernel
  have unclaimed : ∀ i, i ∉ reopened.claims := fun i => Finset.notMem_empty i
  refine ⟨run_reopened, fun right => ?_, fun right => ?_, fun right => ?_⟩
  · have meets := (remove_meets sound isKey_lastKey right.answers 4 last).resolve_left (unclaimed 4)
    exact absurd meets.1 (by decide)
  · have meets := (remove_meets sound isKey_thirdKey right.answers 3 third).resolve_left (unclaimed 3)
    have behind := meets.2.1
    unfold ClearBehind at behind
    exact absurd behind (by decide +kernel)
  · have meets := (remove_meets sound isKey_thirdKey right.answers 3 third).resolve_left (unclaimed 3)
    exact absurd meets.2.2 Bool.false_ne_true

end EncryptedDedup.SDFS.LongMapShard
