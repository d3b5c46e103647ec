import EncryptedDedup.SDFS.LongMapShardRun
import EncryptedDedup.SDFS.ShardedLongMap

/-!
# The sweep of a shard

`claimRecords(nbf, lbf)` takes the keys out that nobody needs, and has the chunk store delete their chunks.
-/

namespace EncryptedDedup.SDFS.LongMapShard
open SlotFile
open OpenAddressing (Slot)

/-- A pass of `claimRecords(nbf, lbf)`, with the calls of `deleteChunk` that `setmDelete` makes. -/
structure Collection extends Pass where
  deleted : List (Bytes × Int)

variable (T : Layout 2)

/-- `kFC.get()`: one byte, with its sign. -/
def signedByteAt (f : Slots) (pos : Nat) : Int := (ofLE (slice f.kFC pos 1) : Int).bmod (2 ^ 8)

/-- A slot that has a key, as the sweep sees it. -/
def Occupied (s : State) (i : Nat) : Prop :=
  keyAt T s.toSlots (i * T.el) ≠ T.free ∧ keyAt T s.toSlots (i * T.el) ≠ T.removed

instance (s : State) (i : Nat) : Decidable (Occupied T s i) := inferInstanceAs (Decidable (_ ∧ _))

def Dead (mightContain : Bytes → Bool) (s : State) (i : Nat) : Prop :=
  Occupied T s i ∧ mightContain (keyAt T s.toSlots (i * T.el)) = false ∧ i ∉ s.claims

instance (mightContain : Bytes → Bool) (s : State) (i : Nat) : Decidable (Dead T mightContain s i) :=
  inferInstanceAs (Decidable (_ ∧ _))

/-- A turn of the loop. The location of the chunk is read with `get` and not with `getLong`. -/
def collectSlot (mightContain : Bytes → Bool) (c : Collection) (iterPos : Nat) : Collection where
  toPass := sweepSlot T mightContain c.toPass iterPos
  deleted :=
    let pos := iterPos * T.el
    let key := keyAt T c.shard.toSlots pos
    let val := signedByteAt c.shard.toSlots (pos + vp T)
    if Dead T mightContain c.shard iterPos then c.deleted ++ [(key, val)] else c.deleted

def collectN (mightContain : Bytes → Bool) (s : State) (n : Nat) : Collection :=
  (List.range n).foldl (collectSlot T mightContain) ⟨⟨s, 0, []⟩, []⟩

def collectRecords (mightContain : Bytes → Bool) (s : State) : Collection := collectN T mightContain s T.size

/-! ### What a pass should do -/

/-- The slots whose keys go, and those whose keys stay. -/
def deadSlots (mightContain : Bytes → Bool) (s : State) (n : Nat) : List Nat :=
  (List.range n).filter fun i => Dead T mightContain s i

def liveSlots (mightContain : Bytes → Bool) (s : State) (n : Nat) : List Nat :=
  (List.range n).filter fun i => Occupied T s i ∧ ¬ Dead T mightContain s i

/-- What is found once the keys of the first `n` slots are dealt with. -/
structure Lookups (mightContain : Bytes → Bool) (s : State) (n : Nat) (s' : State) : Prop where
  sound : Sound T s'
  gone : ∀ key, IsKey T key → (∃ i < n, StoredAt T s key i ∧ Dead T mightContain s i) → contents T s' key = none
  stays : ∀ key, IsKey T key → (¬ ∃ i < n, StoredAt T s key i ∧ Dead T mightContain s i) →
    contents T s' key = contents T s key

/-- The shard after the first `n` turns. -/
structure Swept (mightContain : Bytes → Bool) (s : State) (n : Nat) (c : Pass) : Prop where
  length : c.shard.kFC.length = s.kFC.length
  gone : ∀ i < n, Dead T mightContain s i → slice c.shard.kFC (i * T.el) T.el = T.removed ++ cleared
  stays : ∀ i < T.size, (i < n → ¬ Dead T mightContain s i) →
    slice c.shard.kFC (i * T.el) T.el = slice s.kFC (i * T.el) T.el
  mapped : ∀ i, i ∈ c.shard.mapped ↔
    (i ∈ s.mapped ∨ i < n ∧ Occupied T s i) ∧ ¬ (i < n ∧ Dead T mightContain s i)
  removed : ∀ i, i ∈ c.shard.removed ↔ i ∈ s.removed ∨ i < n ∧ Dead T mightContain s i
  claims : ∀ i, i ∈ c.shard.claims ↔ i ∈ s.claims ∧ ¬ (i < n ∧ Occupied T s i)
  flags : c.shard.active = s.active ∧ c.shard.full = s.full ∧ c.shard.currentSz = s.currentSz
  kept : c.kept = (liveSlots T mightContain s n).map fun i => keyAt T s.toSlots (i * T.el)
  freed : c.freed = (deadSlots T mightContain s n).length
  /-- In a shard that is a map. -/
  lookups : Sound T s → Lookups T mightContain s n c.shard

/-- A pass takes out the keys that are neither in the filter nor claimed, and has the chunk that is stored with
each of them deleted. -/
structure Collects (mightContain : Bytes → Bool) (s : State) (c : Collection) : Prop where
  swept : Swept T mightContain s T.size c.toPass
  deleted : c.deleted = (deadSlots T mightContain s T.size).map fun i =>
    (keyAt T s.toSlots (i * T.el), longAt s.toSlots (i * T.el + vp T))

variable {T} {mightContain : Bytes → Bool} {s : State} {c : Collection} {n : Nat}

/-! ### One turn -/

theorem key_of_slot {a b : Slots} {i : Nat} (same : slice a.kFC (i * T.el) T.el = slice b.kFC (i * T.el) T.el) :
    keyAt T a (i * T.el) = keyAt T b (i * T.el) := slice_front same (hashLength_le T)

theorem slot_room (whole : s.kFC.length = T.size * T.el) {i : Nat} (inside : i < T.size) :
    i * T.el + (T.removed ++ cleared).length ≤ s.kFC.length := by
  have above : (i + 1) * T.el ≤ T.size * T.el := Nat.mul_le_mul_right _ inside
  rw [Nat.succ_mul] at above
  exact Nat.le_trans (Nat.add_le_add_left (spoil_fits T) _) (above.trans_eq whole.symm)

theorem sweepSlot_dead {p : Pass} {i : Nat} (dead : Dead T mightContain p.shard i) :
    sweepSlot T mightContain p i =
      { p with
        shard := { p.shard with toSlots := p.shard.toSlots.drop T i cleared, claims := p.shard.claims.erase i }
        freed := p.freed + 1 } := by
  unfold sweepSlot
  exact (if_pos dead.1).trans (if_pos dead.2)

theorem sweepSlot_live {p : Pass} {i : Nat} (occupied : Occupied T p.shard i) (live : ¬ Dead T mightContain p.shard i) :
    sweepSlot T mightContain p i =
      { p with
        shard := { p.shard with mapped := insert i p.shard.mapped, claims := p.shard.claims.erase i }
        kept := p.kept ++ [keyAt T p.shard.toSlots (i * T.el)] } := by
  unfold sweepSlot
  exact (if_pos occupied).trans (if_neg fun both => live ⟨occupied, both⟩)

theorem sweepSlot_empty {p : Pass} {i : Nat} (empty : ¬ Occupied T p.shard i) : sweepSlot T mightContain p i = p := by
  unfold sweepSlot
  exact if_neg empty

theorem deadSlots_succ (n : Nat) : deadSlots T mightContain s (n + 1) =
    deadSlots T mightContain s n ++ if Dead T mightContain s n then [n] else [] := by
  rw [deadSlots, List.range_succ, List.filter_append]
  congr 1
  rw [List.filter_singleton, Bool.cond_decide]

theorem liveSlots_succ (n : Nat) : liveSlots T mightContain s (n + 1) =
    liveSlots T mightContain s n ++ if Occupied T s n ∧ ¬ Dead T mightContain s n then [n] else [] := by
  rw [liveSlots, List.range_succ, List.filter_append]
  congr 1
  rw [List.filter_singleton, Bool.cond_decide]

theorem Swept.next {p : Pass} (swept : Swept T mightContain s n p) (inside : n < T.size) :
    keyAt T p.shard.toSlots (n * T.el) = keyAt T s.toSlots (n * T.el) ∧
    (Occupied T p.shard n ↔ Occupied T s n) ∧ (Dead T mightContain p.shard n ↔ Dead T mightContain s n) := by
  have key : keyAt T p.shard.toSlots (n * T.el) = keyAt T s.toSlots (n * T.el) :=
    key_of_slot (swept.stays n inside fun less => absurd less (Nat.lt_irrefl n))
  have claimed : n ∈ p.shard.claims ↔ n ∈ s.claims :=
    (swept.claims n).trans (and_iff_left fun both => Nat.lt_irrefl n both.1)
  have occupied : Occupied T p.shard n ↔ Occupied T s n := by
    unfold Occupied
    rw [key]
  refine ⟨key, occupied, ?_⟩
  unfold Dead
  rw [occupied, key, claimed]

theorem stored_of_occupied (sound : Sound T s) {i : Nat} (inside : i < T.size) (occupied : Occupied T s i) :
    IsKey T (keyAt T s.toSlots (i * T.el)) ∧ StoredAt T s (keyAt T s.toSlots (i * T.el)) i := by
  have room := slot_room sound.consistent.length inside
  rw [List.length_append, length_removed] at room
  have length : (keyAt T s.toSlots (i * T.el)).length = T.hashLength := by
    rw [keyAt, length_slice]
    omega
  have plain : IsKey T (keyAt T s.toSlots (i * T.el)) := ⟨length, occupied.1, occupied.2⟩
  refine ⟨plain, slotAt_held.mpr ⟨?_, rfl⟩⟩
  by_contra unmapped
  by_cases removed : i ∈ s.removed
  · exact occupied.2 (sound.consistent.tombstone i removed)
  · exact sound.blank i (by rw [slotAt, if_neg unmapped, if_neg removed]) plain

theorem Lookups.dead (sound : Sound T s) {s' : State} (looks : Lookups T mightContain s n s') (inside : n < T.size)
    (key_there : keyAt T s'.toSlots (n * T.el) = keyAt T s.toSlots (n * T.el)) (dead : Dead T mightContain s n)
    {s'' : State} (slots : s''.toSlots = s'.toSlots.drop T n cleared) : Lookups T mightContain s (n + 1) s'' := by
  have occupied : Occupied T s' n := by
    unfold Occupied
    rw [key_there]
    exact dead.1
  obtain ⟨-, before⟩ := stored_of_occupied sound inside dead.1
  obtain ⟨plain, stored⟩ := stored_of_occupied looks.sound inside occupied
  obtain ⟨sound'', own, others⟩ := drop_contents looks.sound plain stored slots
  rw [key_there] at own others
  refine ⟨sound'', fun key plain' => ?_, fun key plain' none_dead => ?_⟩
  · rintro ⟨i, less, there, dies⟩
    by_cases same : key = keyAt T s.toSlots (n * T.el)
    · rw [same, own]
    · rw [others key plain' same]
      have other : i ≠ n := by
        rintro rfl
        exact same (Slot.held.inj (there.symm.trans before))
      exact looks.gone key plain' ⟨i, by omega, there, dies⟩
  · have different : key ≠ keyAt T s.toSlots (n * T.el) := by
      rintro rfl
      exact none_dead ⟨n, Nat.lt_succ_self n, before, dead⟩
    rw [others key plain' different]
    exact looks.stays key plain' fun ⟨i, less, both⟩ => none_dead ⟨i, Nat.lt_succ_of_lt less, both⟩

theorem Lookups.live {s' : State} (looks : Lookups T mightContain s n s') (live : ¬ Dead T mightContain s n)
    {s'' : State} (slots : s''.toSlots = s'.toSlots) : Lookups T mightContain s (n + 1) s'' := by
  obtain ⟨sound'', same⟩ := looks.sound.of_slots slots
  refine ⟨sound'', fun key plain => ?_, fun key plain none_dead => ?_⟩
  · rintro ⟨i, less, there, dies⟩
    have other : i ≠ n := by
      rintro rfl
      exact live dies
    rw [same]
    exact looks.gone key plain ⟨i, by omega, there, dies⟩
  · rw [same]
    exact looks.stays key plain fun ⟨i, less, both⟩ => none_dead ⟨i, Nat.lt_succ_of_lt less, both⟩

theorem lt_succ_and {P : Nat → Prop} {i : Nat} : i < n + 1 ∧ P i ↔ i < n ∧ P i ∨ i = n ∧ P n := by
  rw [Nat.lt_succ_iff_lt_or_eq, or_and_right]
  refine or_congr_right (and_congr_right fun own => ?_)
  rw [own]

theorem Swept.dead (whole : s.kFC.length = T.size * T.el) (inside : n < T.size) {p : Pass}
    (swept : Swept T mightContain s n p) (dead : Dead T mightContain s n) :
    Swept T mightContain s (n + 1) (sweepSlot T mightContain p n) := by
  obtain ⟨key, -, dead_iff⟩ := swept.next inside
  have occupied := dead.1
  have fits := slot_room (swept.length.trans whole) inside
  have width : (T.removed ++ cleared).length = T.el := by
    rw [List.length_append, length_removed]
    rfl
  rw [sweepSlot_dead (dead_iff.mpr dead)]
  constructor
  case length => exact (length_overwrite fits).trans swept.length
  case gone =>
    intro i less dies
    rcases Nat.lt_succ_iff_lt_or_eq.mp less with before | rfl
    · refine Eq.trans (slice_overwrite_apart fits ?_) (swept.gone i before dies)
      exact .inl (by rw [← Nat.succ_mul]; exact Nat.mul_le_mul_right _ before)
    · have own := slice_overwrite fits
      rwa [width] at own
  case stays =>
    intro i inside' lives
    have other : i ≠ n := by
      rintro rfl
      exact lives (Nat.lt_succ_self i) dead
    refine Eq.trans (slice_overwrite_apart fits ?_) (swept.stays i inside' fun less => lives (Nat.lt_succ_of_lt less))
    rw [width, ← Nat.succ_mul, ← Nat.succ_mul]
    rcases Nat.lt_or_gt_of_ne other with before | behind
    · exact .inl (Nat.mul_le_mul_right _ before)
    · exact .inr (Nat.mul_le_mul_right _ behind)
  case mapped =>
    intro i
    refine Finset.mem_erase.trans ?_
    rw [swept.mapped i, lt_succ_and, lt_succ_and]
    grind
  case removed =>
    intro i
    refine Finset.mem_insert.trans ?_
    rw [swept.removed i, lt_succ_and]
    grind
  case claims =>
    intro i
    refine Finset.mem_erase.trans ?_
    rw [swept.claims i, lt_succ_and]
    grind
  case flags => exact swept.flags
  case kept => rw [liveSlots_succ, if_neg fun both => both.2 dead, List.append_nil, swept.kept]
  case freed => rw [deadSlots_succ, if_pos dead, List.length_append, swept.freed, List.length_singleton]
  case lookups => exact fun sound => (swept.lookups sound).dead sound inside key dead rfl

theorem Swept.keep {p p' : Pass} (swept : Swept T mightContain s n p) (live : ¬ Dead T mightContain s n)
    (bytes : p'.shard.kFC = p.shard.kFC) (removed : p'.shard.removed = p.shard.removed)
    (mapped : ∀ i, i ∈ p'.shard.mapped ↔ i ∈ p.shard.mapped ∨ i = n ∧ Occupied T s n)
    (claims : ∀ i, i ∈ p'.shard.claims ↔ i ∈ p.shard.claims ∧ ¬ (i = n ∧ Occupied T s n))
    (flags : p'.shard.active = p.shard.active ∧ p'.shard.full = p.shard.full ∧ p'.shard.currentSz = p.shard.currentSz)
    (kept : p'.kept = p.kept ++ if Occupied T s n then [keyAt T s.toSlots (n * T.el)] else [])
    (freed : p'.freed = p.freed) (slots : Sound T p.shard → p'.shard.toSlots = p.shard.toSlots) :
    Swept T mightContain s (n + 1) p' := by
  obtain ⟨active, full, currentSz⟩ := flags
  constructor
  case length => rw [bytes, swept.length]
  case gone =>
    intro i less dies
    rw [bytes]
    rcases Nat.lt_succ_iff_lt_or_eq.mp less with before | rfl
    · exact swept.gone i before dies
    · exact absurd dies live
  case stays =>
    intro i inside' lives
    rw [bytes]
    exact swept.stays i inside' fun less => lives (Nat.lt_succ_of_lt less)
  case mapped =>
    intro i
    have before : i = n → ¬ i < n := fun own => own.symm ▸ Nat.lt_irrefl n
    rw [mapped, swept.mapped i, lt_succ_and, lt_succ_and]
    grind
  case removed =>
    intro i
    rw [removed, swept.removed i, lt_succ_and]
    grind
  case claims =>
    intro i
    rw [claims, swept.claims i, lt_succ_and]
    grind
  case flags => rw [active, full, currentSz]; exact swept.flags
  case kept =>
    rw [kept, liveSlots_succ, List.map_append, swept.kept]
    by_cases occupied : Occupied T s n
    · rw [if_pos occupied, if_pos ⟨occupied, live⟩]
      rfl
    · rw [if_neg occupied, if_neg fun both => occupied both.1]
      rfl
  case freed => rw [freed, deadSlots_succ, if_neg live, List.append_nil, swept.freed]
  case lookups => exact fun sound => (swept.lookups sound).live live (slots (swept.lookups sound).sound)

theorem Swept.live (inside : n < T.size) {p : Pass} (swept : Swept T mightContain s n p)
    (occupied : Occupied T s n) (live : ¬ Dead T mightContain s n) :
    Swept T mightContain s (n + 1) (sweepSlot T mightContain p n) := by
  obtain ⟨key, occupied_iff, dead_iff⟩ := swept.next inside
  rw [sweepSlot_live (occupied_iff.mpr occupied) (mt dead_iff.mp live)]
  refine swept.keep live rfl rfl ?mapped ?claims ?flags ?kept ?freed ?slots
  case mapped =>
    intro i
    rw [Finset.mem_insert, and_iff_left occupied, or_comm]
  case claims =>
    intro i
    rw [Finset.mem_erase, and_iff_left occupied, and_comm]
  case flags => exact ⟨rfl, rfl, rfl⟩
  case kept => rw [if_pos occupied, key]
  case freed => rfl
  case slots =>
    intro sound
    obtain ⟨-, stored⟩ := stored_of_occupied sound inside (occupied_iff.mpr occupied)
    have mapped := (slotAt_held.mp stored).1
    dsimp only
    rw [Finset.insert_eq_of_mem mapped]

theorem Swept.empty (inside : n < T.size) {p : Pass} (swept : Swept T mightContain s n p)
    (empty : ¬ Occupied T s n) : Swept T mightContain s (n + 1) (sweepSlot T mightContain p n) := by
  obtain ⟨-, occupied_iff, -⟩ := swept.next inside
  rw [sweepSlot_empty (mt occupied_iff.mp empty)]
  refine swept.keep (fun dead => empty dead.1) rfl rfl ?mapped ?claims ?flags ?kept ?freed ?slots
  case mapped => exact fun i => (or_iff_left fun both => empty both.2).symm
  case claims => exact fun i => (and_iff_left fun both => empty both.2).symm
  case flags => exact ⟨rfl, rfl, rfl⟩
  case kept => rw [if_neg empty, List.append_nil]
  case freed => rfl
  case slots => exact fun _ => rfl

theorem swept_zero (s : State) : Swept T mightContain s 0 ⟨s, 0, []⟩ := by
  have none_yet : ∀ i, ¬ i < 0 := Nat.not_lt_zero
  constructor
  case length => rfl
  case gone => exact fun i less => absurd less (none_yet i)
  case stays => exact fun _ _ _ => rfl
  case mapped => simp
  case removed => simp
  case claims => simp
  case flags => exact ⟨rfl, rfl, rfl⟩
  case kept => rfl
  case freed => rfl
  case lookups =>
    exact fun sound => ⟨sound, fun key _ ⟨i, less, _⟩ => absurd less (none_yet i), fun _ _ _ => rfl⟩

/-! ### A whole pass -/

theorem collectN_succ (n : Nat) :
    collectN T mightContain s (n + 1) = collectSlot T mightContain (collectN T mightContain s n) n := by
  rw [collectN, List.range_succ, List.foldl_append, ← collectN]
  rfl

/-- Whatever is read as the location, the shard is swept. -/
theorem collectN_swept (whole : s.kFC.length = T.size * T.el) (within : n ≤ T.size) :
    Swept T mightContain s n (collectN T mightContain s n).toPass := by
  induction n with
  | zero => exact swept_zero s
  | succ n ih =>
    have swept := ih (Nat.le_of_lt within)
    rw [collectN_succ]
    by_cases occupied : Occupied T s n
    · by_cases dead : Dead T mightContain s n
      · exact swept.dead whole within dead
      · exact swept.live within occupied dead
    · exact swept.empty within occupied

theorem collectN_deleted (whole : s.kFC.length = T.size * T.el) (within : n ≤ T.size) :
    (collectN T mightContain s n).deleted = (deadSlots T mightContain s n).map fun i =>
      (keyAt T s.toSlots (i * T.el), signedByteAt s.toSlots (i * T.el + vp T)) := by
  induction n with
  | zero => rfl
  | succ n ih =>
    have swept : Swept T mightContain s n (collectN T mightContain s n).toPass := collectN_swept whole (Nat.le_of_lt within)
    obtain ⟨key, -, dead_iff⟩ := swept.next within
    rw [collectN_succ, deadSlots_succ, collectSlot]
    dsimp only
    rw [ih (Nat.le_of_lt within), key]
    by_cases dead : Dead T mightContain s n
    · have slot := swept.stays n within fun less => absurd less (Nat.lt_irrefl n)
      have behind : vp T + 1 ≤ T.el := by
        rw [vp, el_eq]
        omega
      have first : signedByteAt (collectN T mightContain s n).shard.toSlots (n * T.el + vp T) =
          signedByteAt s.toSlots (n * T.el + vp T) := by
        unfold signedByteAt
        rw [← slice_slice _ _ behind, slot, slice_slice _ _ behind]
      rw [if_pos (dead_iff.mpr dead), if_pos dead, List.map_append, first]
      rfl
    · rw [if_neg (mt dead_iff.mp dead), if_neg dead, List.append_nil]

/-- The byte at the top is the whole number only if all bits are alike. -/
theorem bmod_top {r b : Nat} (low : r < 256 ^ 7) (byte : b < 256) :
    (b : Int).bmod (2 ^ 8) = ((r + 256 ^ 7 * b : Nat) : Int).bmod (2 ^ 64) ↔
      ((r + 256 ^ 7 * b : Nat) : Int).bmod (2 ^ 64) = 0 ∨ ((r + 256 ^ 7 * b : Nat) : Int).bmod (2 ^ 64) = -1 := by
  rcases Nat.lt_or_ge b 128 with positive | negative
  · rw [Int.bmod_eq_of_le (by omega) (by omega), Int.bmod_eq_of_le (by omega) (by omega)]
    omega
  · have top : (b : Int).bmod (2 ^ 8) = b - 2 ^ 8 := by
      rw [← Int.sub_mul_bmod_self_right _ 1]
      exact Int.bmod_eq_of_le (by omega) (by omega)
    have whole : ((r + 256 ^ 7 * b : Nat) : Int).bmod (2 ^ 64) = (r + 256 ^ 7 * b : Nat) - 2 ^ 64 := by
      rw [← Int.sub_mul_bmod_self_right _ 1]
      exact Int.bmod_eq_of_le (by omega) (by omega)
    rw [top, whole]
    omega

theorem signedByteAt_eq_iff {f : Slots} {pos : Nat} (room : pos + 8 ≤ f.kFC.length) :
    signedByteAt f pos = longAt f pos ↔ longAt f pos = 0 ∨ longAt f pos = -1 := by
  have eight := length_slice room
  have first : slice f.kFC pos 1 = (slice f.kFC pos 8).take 1 := by
    rw [slice, slice, List.take_take]
    rfl
  unfold signedByteAt longAt ofBE64
  rw [first]
  cases bytes : slice f.kFC pos 8 with
  | nil =>
    rw [bytes] at eight
    cases eight
  | cons x rest =>
    rw [bytes] at eight
    have seven : rest.reverse.length = 7 := by
      rw [List.length_reverse]
      exact Nat.succ.inj eight
    have below := ofLE_lt rest.reverse
    rw [seven] at below
    have value : ofLE (x :: rest).reverse = ofLE rest.reverse + 256 ^ 7 * x.toNat := by
      rw [List.reverse_cons, ofLE_append, seven]
      rfl
    have top : ofLE (List.take 1 (x :: rest)) = x.toNat := by
      rw [List.take_succ_cons, List.take_zero, ofLE, ofLE]
      rfl
    rw [value, top]
    exact bmod_top below x.toNat_lt

/-- The sweep does what it should if and only if the location of every key that goes is 0 or -1. -/
theorem collects_iff (T : Layout 2) (mightContain : Bytes → Bool) (s : State) (whole : s.kFC.length = T.size * T.el) :
    Collects T mightContain s (collectRecords T mightContain s) ↔
      ∀ i < T.size, Dead T mightContain s i →
        longAt s.toSlots (i * T.el + vp T) = 0 ∨ longAt s.toSlots (i * T.el + vp T) = -1 := by
  have deleted := @collectN_deleted T mightContain s T.size whole (Nat.le_refl _)
  have each : ∀ i < T.size, signedByteAt s.toSlots (i * T.el + vp T) = longAt s.toSlots (i * T.el + vp T) ↔
      longAt s.toSlots (i * T.el + vp T) = 0 ∨ longAt s.toSlots (i * T.el + vp T) = -1 := by
    intro i inside
    apply signedByteAt_eq_iff
    have room := slot_room whole inside
    have eight := length_toBE64 0
    rw [List.length_append, length_removed, cleared, List.length_append] at room
    rw [vp]
    omega
  have slots : ∀ i, i ∈ deadSlots T mightContain s T.size ↔ i < T.size ∧ Dead T mightContain s i := by
    intro i
    rw [deadSlots, List.mem_filter, List.mem_range, decide_eq_true_eq]
  constructor
  · intro collects i inside dead
    have same := deleted.symm.trans collects.deleted
    have both := (List.map_inj_left.mp same) i ((slots i).mpr ⟨inside, dead⟩)
    exact (each i inside).mp (Prod.mk.inj both).2
  · intro small
    refine ⟨collectN_swept whole (Nat.le_refl _), deleted.trans (List.map_congr_left fun i member => ?_)⟩
    obtain ⟨inside, dead⟩ := (slots i).mp member
    rw [(each i inside).mpr (small i inside dead)]

def halfLive : State := step smallShard (step smallShard oneIn (.put thirdKey 0 1)) .reopen

/-- One key is in the filter and stays, and the other one goes. -/
theorem collects_iff_halfLive :
    Collects smallShard (· == lastKey) halfLive (collectRecords smallShard (· == lastKey) halfLive) ∧
      deadSlots smallShard (· == lastKey) halfLive 5 = [3] ∧ liveSlots smallShard (· == lastKey) halfLive 5 = [4] := by
  refine ⟨(collects_iff smallShard (· == lastKey) halfLive (by decide +kernel)).mpr ?_, ?_, ?_⟩
  · show ∀ i < 5, _
    decide +kernel
  · decide +kernel
  · decide +kernel

/-- The chunks of two keys are deleted at location 0, and theirs are 96 and 64. -/
theorem reopened_not_collected : Run smallShard reopened known ∧
    ¬ Collects smallShard (fun _ => false) reopened (collectRecords smallShard (fun _ => false) reopened) := by
  refine ⟨run_reopened, fun collects => ?_⟩
  have deleted := collects.deleted
  exact absurd deleted (by decide +kernel)

end EncryptedDedup.SDFS.LongMapShard
