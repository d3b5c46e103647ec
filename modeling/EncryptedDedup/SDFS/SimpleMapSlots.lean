import EncryptedDedup.SDFS.SimpleByteArrayLongMap

/-!
# The slots of a `SimpleByteArrayLongMap`

With its bits or without them, a map finds its keys and the places for new ones in one table.
-/

namespace EncryptedDedup.SDFS.SimpleByteArrayLongMap
open SlotFile (hashOf)
open OpenAddressing

/-- The constants of a file. Byte offsets are `int`s. -/
structure Layout where
  hashLength : Nat
  size : Nat
  version : Int
  prime : size.Prime
  long : 12 ≤ hashLength
  int : -2 ^ 31 ≤ version ∧ version < 2 ^ 31
  mappable : (size + 1) * (hashLength + 8) + 16 < 2 ^ 31

variable (T : Layout) (s : State)

def Layout.offset : Nat := if T.version = 0 then 0 else 16

def Layout.el : Nat := T.hashLength + if T.version = 0 then 4 else 8

def Layout.format : Format := ⟨T.version, T.size, T.offset, T.el⟩

structure IsKey (key : Bytes) : Prop where
  length : key.length = T.hashLength
  not_free : key ≠ free T.hashLength

def Fits (value : Int) : Prop :=
  if T.version = 0 then -2 ^ 31 ≤ value ∧ value < 2 ^ 31 else -2 ^ 63 ≤ value ∧ value < 2 ^ 63

instance (value : Int) : Decidable (Fits T value) :=
  inferInstanceAs (Decidable (if T.version = 0 then _ ∧ _ else _ ∧ _))

/-! ### The table of the file -/

def homeOf (key : Bytes) : Nat := hashOf key % T.size

def stepOf (key : Bytes) : Nat := DoubleHashing.step T.size (hashOf key)

def nextOf (key : Bytes) (i : Nat) : Nat := DoubleHashing.back T.size (stepOf T key) i

def slotAt (i : Nat) : Slot Bytes :=
  if i < T.size ∧ keyAt T.hashLength s (i * T.el) ≠ free T.hashLength then .held (keyAt T.hashLength s (i * T.el)) else .free

structure Sound : Prop where
  format : s.format = T.format
  length : s.kFC.length = T.offset + T.size * T.el
  header : T.version ≠ 0 → ofBE32 (slice s.kFC 0 4) = magicNumber ∧ ofBE32 (slice s.kFC 4 4) = T.version
  /-- A map that has its bits has them for the slots with a key. -/
  bits : ∀ mapped, s.mapped = some mapped → ∀ i < T.size, i ∈ mapped ↔ keyAt T.hashLength s (i * T.el) ≠ free T.hashLength
  table : Table (IsKey T) (slotAt T s) (nextOf T) (homeOf T)
  vb : s.vb.length = T.el

variable {T s} {key : Bytes} {i : Nat}

theorem size_ge (T : Layout) : 2 ≤ T.size := T.prime.two_le

theorem el_ge (T : Layout) : T.hashLength + 4 ≤ T.el := by
  unfold Layout.el
  split <;> omega

theorem el_pos (T : Layout) : 0 < T.el := Nat.lt_of_lt_of_le (by omega) (el_ge T)

theorem offset_div (i : Nat) : i * T.el / T.el = i := Nat.mul_div_cancel i (el_pos T)

theorem offset_inj {i j : Nat} : i * T.el = j * T.el ↔ i = j := Nat.mul_left_inj (el_pos T).ne'

theorem homeOf_lt (key : Bytes) : homeOf T key < T.size := Nat.mod_lt _ T.prime.pos

theorem nextOf_lt (key : Bytes) {i : Nat} (inside : i < T.size) : nextOf T key i < T.size :=
  DoubleHashing.back_lt (size_ge T) (hashOf key) inside

theorem nextOf_home (key : Bytes) (two : T.size = 2) : nextOf T key (homeOf T key) = homeOf T key :=
  DoubleHashing.back_home (hashOf key) two (homeOf_lt key)

theorem stepBack_offset (sound : Sound T s) (key : Bytes) (i : Nat) :
    stepBack s (stepOf T key * T.el) (i * T.el) = nextOf T key i * T.el := by
  rw [stepBack, sound.format]
  exact DoubleHashing.back_mul (el_pos T) (stepOf T key) i

theorem probeOf_eq (sound : Sound T s) (key : Bytes) (more : T.size ≠ 2) :
    probeOf s (hashOf key) = .ok (stepOf T key * T.el) := by
  rw [probeOf, sound.format, stepOf, DoubleHashing.step, if_neg more]
  exact if_neg more

theorem probeOf_two (sound : Sound T s) (hash : Nat) (two : T.size = 2) : probeOf s hash = .error .arithmetic := by
  rw [probeOf, sound.format]
  exact if_pos two

theorem slotAt_held : slotAt T s i = .held key ↔
    (i < T.size ∧ keyAt T.hashLength s (i * T.el) ≠ free T.hashLength) ∧ keyAt T.hashLength s (i * T.el) = key := by
  unfold slotAt
  split
  · rename_i taken
    rw [Slot.held.injEq]
    exact (and_iff_right taken).symm
  · rename_i unused
    exact iff_of_false (fun same => nomatch same) fun both => unused both.1

theorem slotAt_free (inside : i < T.size) : slotAt T s i = .free ↔ keyAt T.hashLength s (i * T.el) = free T.hashLength := by
  unfold slotAt
  split
  · rename_i taken
    exact iff_of_false (fun same => nomatch same) taken.2
  · rename_i unused
    refine iff_of_true rfl ?_
    by_contra other
    exact unused ⟨inside, other⟩

theorem slotAt_ne_removed (i : Nat) : slotAt T s i ≠ .removed := by
  unfold slotAt
  split <;> exact fun same => nomatch same

theorem isMapped_taken (sound : Sound T s) (inside : i < T.size) (taken : slotAt T s i ≠ .free) : isMapped s i = true := by
  unfold isMapped
  cases bits : s.mapped with
  | none => rfl
  | some mapped =>
    rw [ne_eq, slotAt_free inside] at taken
    exact decide_eq_true ((sound.bits mapped bits i inside).mpr taken)

theorem mapped_key_iff (sound : Sound T s) (plain : IsKey T key) (inside : i < T.size) :
    (isMapped s i = true ∧ keyAt T.hashLength s (i * T.el) = key) ↔ slotAt T s i = .held key := by
  rw [slotAt_held]
  constructor
  · exact fun both => ⟨⟨inside, both.2 ▸ plain.not_free⟩, both.2⟩
  · intro held
    exact ⟨isMapped_taken sound inside (mt (slotAt_free inside).mp held.1.2), held.2⟩

/-- A slot that a probe takes for free: it reads the key `FREE`, or does not read because of the bit. -/
theorem unused_iff (sound : Sound T s) (inside : i < T.size) :
    (isMapped s i = true ∧ keyAt T.hashLength s (i * T.el) = free T.hashLength) ∨ isMapped s i = false ↔
      slotAt T s i = .free := by
  constructor
  · rintro (⟨-, unused⟩ | unmapped)
    · exact (slotAt_free inside).mpr unused
    · by_contra taken
      rw [isMapped_taken sound inside taken] at unmapped
      cases unmapped
  · intro unused
    cases bit : isMapped s i with
    | true => exact .inl ⟨rfl, (slotAt_free inside).mp unused⟩
    | false => exact .inr rfl

/-! ### Search -/

/-- The loop goes on along the path to the key; no slot before is free. -/
theorem indexRehashed_stored (sound : Sound T s) (plain : IsKey T key) {home n m fuel : Nat} (start : home < T.size)
    (here : (nextOf T key)^[n] home = i) (held : slotAt T s i = .held key)
    (path : Passable (slotAt T s) (nextOf T key) home n)
    (alone : ∀ l < n, slotAt T s ((nextOf T key)^[l] home) ≠ .held key)
    (away : ∀ l, 0 < l → l ≤ n → (nextOf T key)^[l] home ≠ home) (before : m < n) (enough : n - m ≤ fuel) :
    indexRehashed T.hashLength s key (stepOf T key * T.el) (home * T.el) fuel ((nextOf T key)^[m] home * T.el) =
      (i * T.el : Nat) := by
  induction fuel generalizing m with
  | zero => omega
  | succ fuel ih =>
    have inside : (nextOf T key)^[m + 1] home < T.size := iterate_lt start (fun _ => nextOf_lt key) _
    rw [indexRehashed, stepBack_offset sound, ← Function.iterate_succ_apply' (nextOf T key) m home, sound.format,
      show T.format.el = T.el from rfl, offset_div]
    rcases Nat.lt_or_ge (m + 1) n with more | last
    · rw [if_neg (mt (mapped_key_iff sound plain inside).mp (alone _ more)),
        if_neg fun unused => path _ more ((unused_iff sound inside).mp (.inl unused)),
        if_neg (mt offset_inj.mp (away _ (Nat.succ_pos m) before))]
      exact ih more (by omega)
    · obtain rfl : n = m + 1 := by omega
      rw [here] at inside ⊢
      exact if_pos ((mapped_key_iff sound plain inside).mpr held)

theorem indexRehashed_absent (sound : Sound T s) (plain : IsKey T key) (absent : ∀ j, slotAt T s j ≠ .held key)
    {home fuel : Nat} (inside : i < T.size) :
    indexRehashed T.hashLength s key (stepOf T key * T.el) (home * T.el) fuel (i * T.el) = -1 := by
  induction fuel generalizing i with
  | zero => rfl
  | succ fuel ih =>
    have next_inside := nextOf_lt key inside
    rw [indexRehashed, stepBack_offset sound, sound.format, show T.format.el = T.el from rfl, offset_div,
      if_neg (mt (mapped_key_iff sound plain next_inside).mp (absent _))]
    split
    · rfl
    · split
      · rfl
      · exact ih next_inside

theorem index_eq (sound : Sound T s) (key : Bytes) :
    index T.hashLength s key =
      if isMapped s (homeOf T key) = true ∧ keyAt T.hashLength s (homeOf T key * T.el) = key then
        .ok (homeOf T key * T.el : Nat)
      else if isMapped s (homeOf T key) = true ∧ keyAt T.hashLength s (homeOf T key * T.el) = free T.hashLength then
        .ok (-1)
      else (probeOf s (hashOf key)).map fun probe =>
        indexRehashed T.hashLength s key probe (homeOf T key * T.el) T.size (homeOf T key * T.el) := by
  unfold index homeOf
  rw [sound.format]
  rfl

theorem index_stored (sound : Sound T s) (plain : IsKey T key) (held : slotAt T s i = .held key) :
    index T.hashLength s key = .ok (i * T.el : Nat) := by
  obtain ⟨n, short, here, path, alone, away⟩ := (sound.table.reached key i plain held).path (homeOf_lt key)
    (fun _ => nextOf_lt key) fun j other => sound.table.single key j i plain other held
  have home := homeOf_lt (T := T) key
  rw [index_eq sound]
  rcases Nat.eq_zero_or_pos n with rfl | positive
  · have at_home : homeOf T key = i := here
    rw [at_home] at home ⊢
    exact if_pos ((mapped_key_iff sound plain home).mpr held)
  · have more : T.size ≠ 2 := fun two => away n positive (Nat.le_refl n) (Function.iterate_fixed (nextOf_home key two) n)
    rw [if_neg (mt (mapped_key_iff sound plain home).mp (alone 0 positive)),
      if_neg fun unused => path 0 positive ((unused_iff sound home).mp (.inl unused)), probeOf_eq sound key more]
    exact congrArg Except.ok (indexRehashed_stored sound plain (homeOf_lt key) here held path alone away positive
      (Nat.le_of_lt short))

theorem index_absent (sound : Sound T s) (plain : IsKey T key) (absent : ∀ j, slotAt T s j ≠ .held key) :
    index T.hashLength s key = .ok (-1) ∨ index T.hashLength s key = .error .arithmetic := by
  have home := homeOf_lt (T := T) key
  rw [index_eq sound, if_neg (mt (mapped_key_iff sound plain home).mp (absent _))]
  split
  · exact .inl rfl
  · by_cases two : T.size = 2
    · rw [probeOf_two sound _ two]
      exact .inr rfl
    · rw [probeOf_eq sound key two]
      exact .inl (congrArg Except.ok (indexRehashed_absent sound plain absent home))

/-! ### Insertion -/

def placeOf (T : Layout) : Place → Except Thrown Int
  | .stored i => .ok (-(i * T.el : Nat) - 1)
  | .vacant i => .ok (i * T.el : Nat)
  | .full => .error .illegalState

theorem insertKeyRehash_succ (sound : Sound T s) (plain : IsKey T key) {home n : Nat} (inside : i < T.size) :
    insertKeyRehash T.hashLength s key (stepOf T key * T.el) (home * T.el) (n + 1) (i * T.el) =
      if slotAt T s (nextOf T key i) = .free then .ok (nextOf T key i * T.el : Nat)
      else if slotAt T s (nextOf T key i) = .held key then .ok (-(nextOf T key i * T.el : Nat) - 1)
      else if nextOf T key i = home then .error .illegalState
      else insertKeyRehash T.hashLength s key (stepOf T key * T.el) (home * T.el) n (nextOf T key i * T.el) := by
  have next_inside := nextOf_lt key inside
  rw [insertKeyRehash, stepBack_offset sound, sound.format, show T.format.el = T.el from rfl, offset_div]
  by_cases unused : slotAt T s (nextOf T key i) = .free
  · rw [if_pos unused]
    rcases (unused_iff sound next_inside).mpr unused with read | unmapped
    · exact if_pos read
    · simp only [unmapped, Bool.false_eq_true, false_and, if_false, if_true]
  · have taken := isMapped_taken sound next_inside unused
    rw [if_neg unused, if_neg fun read => unused ((unused_iff sound next_inside).mp (.inl read))]
    simp only [mapped_key_iff sound plain next_inside, offset_inj]
    simp only [taken, Bool.true_eq_false, if_false]

theorem insertKeyRehash_eq (sound : Sound T s) (plain : IsKey T key) {home n : Nat} (inside : i < T.size) :
    insertKeyRehash T.hashLength s key (stepOf T key * T.el) (home * T.el) n (i * T.el) =
      placeOf T (vacate (slotAt T s) (nextOf T key) key true home n i none) := by
  induction n generalizing i with
  | zero => rfl
  | succ n ih =>
    rw [insertKeyRehash_succ sound plain inside, vacate]
    simp only [slotAt_ne_removed, false_and, if_false, true_and]
    split
    · rfl
    · split
      · rfl
      · split
        · rfl
        · exact ih (nextOf_lt key inside)

/-- A table of two slots has no slot to try but the home. -/
def Stuck (T : Layout) (s : State) (key : Bytes) : Prop :=
  T.size = 2 ∧ slotAt T s (homeOf T key) ≠ .free ∧ slotAt T s (homeOf T key) ≠ .held key

theorem insertionIndex_home (sound : Sound T s) (key : Bytes) :
    insertionIndex T.hashLength s key =
      if isMapped s (homeOf T key) = true ∧ keyAt T.hashLength s (homeOf T key * T.el) = free T.hashLength then
        .ok (homeOf T key * T.el : Nat)
      else if isMapped s (homeOf T key) = true ∧ keyAt T.hashLength s (homeOf T key * T.el) = key then
        .ok (-(homeOf T key * T.el : Nat) - 1)
      else if isMapped s (homeOf T key) = false then .ok (homeOf T key * T.el : Nat)
      else (probeOf s (hashOf key)).bind fun probe =>
        insertKeyRehash T.hashLength s key probe (homeOf T key * T.el) T.size (homeOf T key * T.el) := by
  unfold insertionIndex homeOf
  rw [sound.format]
  rfl

theorem insertionIndex_eq (sound : Sound T s) (plain : IsKey T key) (moves : ¬ Stuck T s key) :
    insertionIndex T.hashLength s key =
      placeOf T (place (slotAt T s) (nextOf T key) key true (homeOf T key) T.size) := by
  have home := homeOf_lt (T := T) key
  rw [insertionIndex_home sound, place]
  by_cases unused : slotAt T s (homeOf T key) = .free
  · rw [if_pos unused]
    rcases (unused_iff sound home).mpr unused with read | unmapped
    · exact if_pos read
    · simp only [unmapped, Bool.false_eq_true, false_and, if_false, if_true]
      rfl
  · have taken := isMapped_taken sound home unused
    rw [if_neg unused, if_neg fun read => unused ((unused_iff sound home).mp (.inl read))]
    simp only [mapped_key_iff sound plain home, true_and]
    simp only [taken, Bool.true_eq_false, if_false]
    by_cases held : slotAt T s (homeOf T key) = .held key
    · rw [if_pos held, if_pos held]
      rfl
    · rw [if_neg held, if_neg held, probeOf_eq sound key fun two => moves ⟨two, unused, held⟩]
      exact insertKeyRehash_eq sound plain home

theorem insertionIndex_stuck (sound : Sound T s) (plain : IsKey T key) (stuck : Stuck T s key) :
    insertionIndex T.hashLength s key = .error .arithmetic := by
  obtain ⟨two, taken, other⟩ := stuck
  have home := homeOf_lt (T := T) key
  rw [insertionIndex_home sound, if_neg fun read => taken ((unused_iff sound home).mp (.inl read)),
    if_neg (mt (mapped_key_iff sound plain home).mp other), isMapped_taken sound home taken,
    if_neg Bool.true_eq_false.mp, probeOf_two sound _ two]
  rfl

theorem insertionIndex_stored (sound : Sound T s) (plain : IsKey T key) (held : slotAt T s i = .held key) :
    insertionIndex T.hashLength s key = .ok (-(i * T.el : Nat) - 1) := by
  have placed := (sound.table.place_iff homeOf_lt (fun k j => nextOf_lt k) plain i).mpr held
  have moves : ¬ Stuck T s key := by
    rintro ⟨two, -, elsewhere⟩
    obtain ⟨n, here, -⟩ := sound.table.reached key i plain held
    rw [Function.iterate_fixed (nextOf_home key two)] at here
    exact elsewhere (here ▸ held)
  rw [insertionIndex_eq sound plain moves, placed]
  rfl

theorem insertionIndex_absent (sound : Sound T s) (plain : IsKey T key) (absent : ∀ j, slotAt T s j ≠ .held key) :
    (∃ i, insertionIndex T.hashLength s key = .ok (i * T.el : Nat) ∧
      Vacant (slotAt T s) (nextOf T key) (homeOf T key) i ∧ ¬ Stuck T s key) ∨
    (insertionIndex T.hashLength s key = .error .arithmetic ∧ Stuck T s key) ∨
    (insertionIndex T.hashLength s key = .error .illegalState ∧ ∀ j < T.size, slotAt T s j ≠ .free) := by
  by_cases stuck : Stuck T s key
  · exact .inr (.inl ⟨insertionIndex_stuck sound plain stuck, stuck⟩)
  · rw [insertionIndex_eq sound plain stuck]
    cases here : place (slotAt T s) (nextOf T key) key true (homeOf T key) T.size with
    | stored i => exact absurd (place_sound here) (absent i)
    | vacant i => exact .inl ⟨i, rfl, place_vacant here, stuck⟩
    | full =>
      refine .inr (.inr ⟨rfl, fun j inside unused => ?_⟩)
      by_cases two : T.size = 2
      · have taken : slotAt T s (homeOf T key) ≠ .free := by
          intro empty
          rw [place, if_pos empty] at here
          cases here
        exact stuck ⟨two, taken, absent _⟩
      · exact absurd here (place_ne_full (DoubleHashing.iterate_back_away T.prime two (hashOf key) (homeOf T key))
          (DoubleHashing.iterate_back_covers T.prime two (hashOf key) (homeOf_lt key) inside) (.inl unused))

/-! ### What is stored -/

def StoredAt (T : Layout) (s : State) (key : Bytes) (i : Nat) : Prop := slotAt T s i = .held key

def contents (T : Layout) (s : State) (key : Bytes) : Option Int :=
  match index T.hashLength s key with
  | .error _ => none
  | .ok pos => if pos = -1 then none else some (valueAt T.hashLength s pos.toNat)

theorem contents_stored (sound : Sound T s) (plain : IsKey T key) (stored : StoredAt T s key i) :
    contents T s key = some (valueAt T.hashLength s (i * T.el)) := by
  rw [contents, index_stored sound plain stored]
  exact if_neg (by omega)

theorem contents_absent (sound : Sound T s) (plain : IsKey T key) (absent : ∀ i, ¬ StoredAt T s key i) :
    contents T s key = none := by
  unfold contents
  rcases index_absent sound plain absent with result | result <;> rw [result]
  rfl

theorem contents_none (sound : Sound T s) (plain : IsKey T key) :
    contents T s key = none ↔ ∀ i, ¬ StoredAt T s key i := by
  refine ⟨fun nothing i stored => ?_, contents_absent sound plain⟩
  rw [contents_stored sound plain stored] at nothing
  cases nothing

theorem contents_some (sound : Sound T s) (plain : IsKey T key) {value : Int} :
    contents T s key = some value ↔ ∃ i, StoredAt T s key i ∧ valueAt T.hashLength s (i * T.el) = value := by
  constructor
  · intro known
    by_cases there : ∃ i, StoredAt T s key i
    · obtain ⟨i, stored⟩ := there
      rw [contents_stored sound plain stored] at known
      exact ⟨i, stored, Option.some.inj known⟩
    · rw [contents_absent sound plain (not_exists.mp there)] at known
      cases known
  · rintro ⟨i, stored, rfl⟩
    exact contents_stored sound plain stored

theorem StoredAt.lt (stored : StoredAt T s key i) : i < T.size := (slotAt_held.mp stored).1.1

theorem StoredAt.unique (sound : Sound T s) (plain : IsKey T key) {j : Nat} (stored : StoredAt T s key i)
    (other : StoredAt T s key j) : j = i := sound.table.single key j i plain other stored

theorem isKey_keyAt (sound : Sound T s) (inside : i < T.size) (taken : slotAt T s i ≠ .free) :
    IsKey T (keyAt T.hashLength s (i * T.el)) := by
  refine ⟨length_slice ?_, mt (slotAt_free inside).mpr taken⟩
  have above : (i + 1) * T.el ≤ T.size * T.el := Nat.mul_le_mul_right _ inside
  have wide := el_ge T
  rw [Nat.succ_mul] at above
  rw [sound.format, sound.length]
  show i * T.el + T.offset + T.hashLength ≤ _
  omega

/-! ### Writes -/

theorem length_encode (value : Int) : T.hashLength + (encode T.version value).length = T.el := by
  unfold encode Layout.el
  split
  · rw [length_toBE32]
  · rw [length_toBE64]

theorem decode_encode {value : Int} (fits : Fits T value) : decode T.version (encode T.version value) = value := by
  unfold Fits at fits
  unfold decode encode
  split
  · rename_i zero
    rw [if_pos zero] at fits
    have word : slice (toBE32 value) 0 4 = toBE32 value := List.take_of_length_le (length_toBE32 value).le
    rw [word, ofBE32_toBE32]
    exact Int.bmod_eq_of_le (by omega) (by omega)
  · rename_i other
    rw [if_neg other] at fits
    have word : slice (toBE64 value) 0 8 = toBE64 value := List.take_of_length_le (length_toBE64 value).le
    rw [word, ofBE64_toBE64]
    exact Int.bmod_eq_of_le (by omega) (by omega)

def written (T : Layout) (s : State) (key : Bytes) (value : Int) (i : Nat) : State :=
  { s with
    vb := key ++ encode T.version value
    bw := s.bw.map (putEntry key value)
    kFC := overwrite s.kFC (i * T.el + T.offset) (key ++ encode T.version value)
    mapped := s.mapped.map (insert i)
    currentSz := if s.mapped.isSome then s.currentSz + 1 else s.currentSz }

theorem length_record (plain : IsKey T key) (value : Int) : (key ++ encode T.version value).length = T.el := by
  rw [List.length_append, plain.length, length_encode]

theorem record_fits (sound : Sound T s) (inside : i < T.size) : i * T.el + T.offset + T.el ≤ s.kFC.length := by
  have above : (i + 1) * T.el ≤ T.size * T.el := Nat.mul_le_mul_right _ inside
  rw [Nat.succ_mul] at above
  rw [sound.length]
  omega

theorem slice_written (sound : Sound T s) (plain : IsKey T key) (inside : i < T.size) (value : Int) (j : Nat) :
    slice (written T s key value i).kFC (j * T.el + T.offset) T.el =
      if j = i then key ++ encode T.version value else slice s.kFC (j * T.el + T.offset) T.el := by
  have width := length_record plain value
  have fits : i * T.el + T.offset + (key ++ encode T.version value).length ≤ s.kFC.length := by
    rw [width]
    exact record_fits sound inside
  split
  · rename_i same
    subst same
    have own := slice_overwrite fits
    rwa [width] at own
  · rename_i other
    apply slice_overwrite_apart fits
    rw [width]
    rcases Nat.lt_or_gt_of_ne other with before | behind
    · have above : (j + 1) * T.el ≤ i * T.el := Nat.mul_le_mul_right _ before
      rw [Nat.succ_mul] at above
      omega
    · have above : (i + 1) * T.el ≤ j * T.el := Nat.mul_le_mul_right _ behind
      rw [Nat.succ_mul] at above
      omega

theorem keyAt_eq_take (format : s.format = T.format) (j : Nat) :
    keyAt T.hashLength s (j * T.el) = (slice s.kFC (j * T.el + T.offset) T.el).take T.hashLength := by
  have wide := el_ge T
  rw [keyAt, format, ← slice_slice_take _ _ (by omega)]
  rfl

theorem valueAt_eq (format : s.format = T.format) (j : Nat) : valueAt T.hashLength s (j * T.el) =
    decode T.version ((slice s.kFC (j * T.el + T.offset) T.el).drop T.hashLength) := by
  rw [valueAt, format]
  rfl

theorem slotAt_written (sound : Sound T s) (plain : IsKey T key) (inside : i < T.size) (value : Int) :
    StoredAt T (written T s key value i) key i ∧
    (∀ j, j ≠ i → slotAt T (written T s key value i) j = slotAt T s j) ∧
    valueAt T.hashLength (written T s key value i) (i * T.el) = decode T.version (encode T.version value) ∧
    ∀ j, j ≠ i → valueAt T.hashLength (written T s key value i) (j * T.el) = valueAt T.hashLength s (j * T.el) := by
  have format : (written T s key value i).format = T.format := sound.format
  have own : keyAt T.hashLength (written T s key value i) (i * T.el) = key := by
    rw [keyAt_eq_take format, slice_written sound plain inside, if_pos rfl, List.take_left' plain.length]
  refine ⟨slotAt_held.mpr ⟨⟨inside, by rw [own]; exact plain.not_free⟩, own⟩, fun j other => ?_, ?_, fun j other => ?_⟩
  · have same : keyAt T.hashLength (written T s key value i) (j * T.el) = keyAt T.hashLength s (j * T.el) := by
      rw [keyAt_eq_take format, keyAt_eq_take sound.format, slice_written sound plain inside, if_neg other]
    unfold slotAt
    rw [same]
  · rw [valueAt_eq format, slice_written sound plain inside, if_pos rfl, List.drop_left' plain.length]
  · rw [valueAt_eq format, valueAt_eq sound.format, slice_written sound plain inside, if_neg other]

theorem Sound.written (sound : Sound T s) (plain : IsKey T key) (absent : ∀ j, ¬ StoredAt T s key j)
    (vacant : Vacant (slotAt T s) (nextOf T key) (homeOf T key) i) (value : Int) :
    Sound T (SimpleByteArrayLongMap.written T s key value i) := by
  have inside : i < T.size := vacant.reached.lt (homeOf_lt key) fun _ => nextOf_lt key
  have width := length_record plain value
  have fits : i * T.el + T.offset + (key ++ encode T.version value).length ≤ s.kFC.length := by
    rw [width]
    exact record_fits sound inside
  obtain ⟨here, others, -⟩ := slotAt_written sound plain inside value
  constructor
  case format => exact sound.format
  case length => exact (length_overwrite fits).trans sound.length
  case header =>
    intro other
    have behind : T.offset = 16 := if_neg other
    have kept : ∀ p, p ≤ 4 → slice (SimpleByteArrayLongMap.written T s key value i).kFC p 4 = slice s.kFC p 4 :=
      fun p early => slice_overwrite_apart fits (.inl (by omega))
    rw [kept 0 (by omega), kept 4 (by omega)]
    exact sound.header other
  case bits =>
    intro mapped bits j inside'
    obtain ⟨before, there, rfl⟩ := Option.map_eq_some_iff.mp bits
    rw [Finset.mem_insert, sound.bits before there j inside', ne_eq, ne_eq, ← slotAt_free inside', ← slotAt_free inside']
    by_cases same : j = i
    · subst same
      rw [here]
      exact iff_of_true (.inl rfl) fun unused => nomatch unused
    · rw [others j same]
      exact or_iff_right same
  case table => exact sound.table.insert vacant absent here others
  case vb => exact width

theorem written_contents (sound : Sound T s) (plain : IsKey T key) (absent : ∀ j, ¬ StoredAt T s key j)
    (vacant : Vacant (slotAt T s) (nextOf T key) (homeOf T key) i) {value : Int} (fits : Fits T value) :
    contents T (written T s key value i) key = some value ∧
      ∀ k, IsKey T k → k ≠ key → contents T (written T s key value i) k = contents T s k := by
  have inside : i < T.size := vacant.reached.lt (homeOf_lt key) fun _ => nextOf_lt key
  have sound' := sound.written plain absent vacant value
  obtain ⟨here, others, own, values⟩ := slotAt_written sound plain inside value
  refine ⟨?_, fun k plain' different => ?_⟩
  · rw [contents_stored sound' plain here, own, decode_encode fits]
  · by_cases known : ∃ j, StoredAt T s k j
    · obtain ⟨j, stored⟩ := known
      have other : j ≠ i := by
        rintro rfl
        exact vacant.ne_held stored
      have stored' : StoredAt T (written T s key value i) k j := (others j other).trans stored
      rw [contents_stored sound' plain' stored', contents_stored sound plain' stored, values j other]
    · rw [contents_absent sound plain' (not_exists.mp known)]
      apply contents_absent sound' plain'
      intro j stored'
      by_cases same : j = i
      · rw [same] at stored'
        exact different (Slot.held.inj (stored'.symm.trans here))
      · exact known ⟨j, (others j same).symm.trans stored'⟩

/-! ### Other states of the file -/

theorem Sound.of_file (sound : Sound T s) {s' : State} (format : s'.format = s.format) (kFC : s'.kFC = s.kFC)
    (vb : s'.vb.length = T.el) (mapped : s'.mapped = s.mapped ∨ s'.mapped = none) :
    Sound T s' ∧ ∀ key, IsKey T key → contents T s' key = contents T s key := by
  have keys : ∀ j, keyAt T.hashLength s' j = keyAt T.hashLength s j := by
    intro j
    rw [keyAt, keyAt, format, kFC]
  have slots : slotAt T s' = slotAt T s := by
    funext j
    unfold slotAt
    rw [keys]
  have sound' : Sound T s' := by
    constructor
    case format => exact format.trans sound.format
    case length => rw [kFC, sound.length]
    case header =>
      rw [kFC]
      exact sound.header
    case bits =>
      intro bits there j inside
      rw [keys]
      rcases mapped with same | none_left
      · exact sound.bits bits (same ▸ there) j inside
      · rw [none_left] at there
        cases there
    case table =>
      rw [slots]
      exact sound.table
    case vb => exact vb
  refine ⟨sound', fun key plain => ?_⟩
  by_cases known : ∃ i, StoredAt T s key i
  · obtain ⟨i, stored⟩ := known
    have stored' : StoredAt T s' key i := (congrFun slots i).trans stored
    rw [contents_stored sound plain stored, contents_stored sound' plain stored', valueAt, valueAt, format, kFC]
  · have absent := not_exists.mp known
    rw [contents_absent sound plain absent]
    exact contents_absent sound' plain fun i stored => absent i ((congrFun slots i).symm.trans stored)

theorem close_sound (sound : Sound T s) :
    Sound T (close s) ∧ ∀ key, IsKey T key → contents T (close s) key = contents T s key :=
  sound.of_file rfl rfl sound.vb (.inr rfl)

theorem setUp_file (sound : Sound T s) (size : Nat) {version : Int} (kind : version = 0 ↔ T.version = 0) :
    setUp T.hashLength size version (some s.kFC) =
      ⟨T.format, s.kFC, none, some [], zeros T.el, 0, none, 0, false⟩ := by
  have many := Nat.mul_le_mul_right T.el (size_ge T)
  have wide := el_ge T
  have long := T.long
  have length := sound.length
  unfold setUp
  dsimp only [Option.getD_some, Option.isNone_some]
  rw [if_neg Bool.false_ne_true]
  by_cases zero : T.version = 0
  · have offset : T.offset = 0 := if_pos zero
    have el : T.el = T.hashLength + 4 := by rw [Layout.el, if_pos zero]
    have size : s.kFC.length / (T.hashLength + 4) = T.size := by
      rw [length, offset, Nat.zero_add, ← el, Nat.mul_div_cancel _ (el_pos T)]
    rw [if_neg (not_not_intro (kind.mpr zero)), if_neg (by omega), size, Layout.format, zero, offset, el]
  · have offset : T.offset = 16 := if_neg zero
    have el : T.el = T.hashLength + 8 := by rw [Layout.el, if_neg zero]
    have size : (s.kFC.length - 16) / (T.hashLength + 8) = T.size := by
      rw [length, offset, Nat.add_sub_cancel_left, ← el, Nat.mul_div_cancel _ (el_pos T)]
    obtain ⟨magic, version'⟩ := sound.header zero
    rw [if_pos (mt kind.mp zero), if_neg (by omega), if_pos magic, version', size, Layout.format, offset, el]

theorem setUp_sound (sound : Sound T s) (size : Nat) {version : Int} (kind : version = 0 ↔ T.version = 0) :
    Sound T (setUp T.hashLength size version (some s.kFC)) ∧
      ∀ key, IsKey T key → contents T (setUp T.hashLength size version (some s.kFC)) key = contents T s key := by
  rw [setUp_file sound size kind]
  exact sound.of_file sound.format.symm rfl (length_zeros _) (.inr rfl)

def newFile (T : Layout) : Bytes := (if T.version = 0 then [] else header T.version) ++ zeros (T.size * T.el)

theorem length_header (version : Int) : (header version).length = 16 := by
  rw [header, List.length_append, List.length_append, length_toBE32, length_toBE32, length_zeros]

theorem setUp_new (T : Layout) : setUp T.hashLength T.size T.version none =
    ⟨T.format, newFile T, some ∅, some [], zeros T.el, 0, none, 0, false⟩ := by
  unfold setUp
  dsimp only [Option.getD_none, Option.isNone_none, List.length_nil]
  rw [if_pos rfl]
  by_cases zero : T.version = 0
  · have offset : T.offset = 0 := if_pos zero
    have el : T.el = T.hashLength + 4 := by rw [Layout.el, if_pos zero]
    have file : setLength [] ((T.hashLength + 4) * T.size) = newFile T := by
      rw [setLength, List.take_nil, List.length_nil, Nat.sub_zero, newFile, if_pos zero, el, Nat.mul_comm]
    rw [if_neg (not_not_intro zero), if_pos rfl, file, Layout.format, zero, offset, el]
  · have offset : T.offset = 16 := if_neg zero
    have el : T.el = T.hashLength + 8 := by rw [Layout.el, if_neg zero]
    have written : writeAt [] 0 (header T.version) = header T.version := by
      rw [writeAt, overwrite, List.take_zero, List.drop_eq_nil_of_le (by rw [length_header]; decide), List.nil_append,
        List.append_nil]
    have file : setLength (writeAt [] 0 (header T.version)) ((T.hashLength + 8) * T.size + 16) = newFile T := by
      rw [written, setLength, List.take_of_length_le (by rw [length_header]; omega), length_header, Nat.add_sub_cancel,
        newFile, if_neg zero, el, Nat.mul_comm]
    rw [if_pos zero, if_pos (Nat.zero_le 16), file, Layout.format, offset, el]

theorem length_newFile (T : Layout) : (newFile T).length = T.offset + T.size * T.el := by
  rw [newFile, List.length_append, length_zeros, Layout.offset]
  split
  · rfl
  · rw [length_header]

theorem keyAt_newFile {i : Nat} (inside : i < T.size) :
    slice (newFile T) (i * T.el + T.offset) T.hashLength = free T.hashLength := by
  have front : (if T.version = 0 then [] else header T.version).length = T.offset := by
    rw [Layout.offset]
    split
    · rfl
    · exact length_header _
  have above : (i + 1) * T.el ≤ T.size * T.el := Nat.mul_le_mul_right _ inside
  have wide := el_ge T
  rw [Nat.succ_mul] at above
  rw [slice, newFile, Nat.add_comm, ← List.drop_drop, List.drop_left' front, zeros, List.drop_replicate,
    List.take_replicate, Nat.min_eq_left (by omega)]
  rfl

theorem header_newFile (other : T.version ≠ 0) :
    ofBE32 (slice (newFile T) 0 4) = magicNumber ∧ ofBE32 (slice (newFile T) 4 4) = T.version := by
  obtain ⟨low, high⟩ := T.int
  have parts : newFile T = toBE32 magicNumber ++ toBE32 T.version ++ (zeros 8 ++ zeros (T.size * T.el)) := by
    rw [newFile, if_neg other, header, List.append_assoc]
  have second := slice_between (toBE32 magicNumber) (toBE32 T.version) (zeros 8 ++ zeros (T.size * T.el))
  rw [length_toBE32, length_toBE32] at second
  rw [parts, second, slice, List.drop_zero, List.append_assoc, List.take_left' (length_toBE32 _), ofBE32_toBE32,
    ofBE32_toBE32]
  exact ⟨by decide, Int.bmod_eq_of_le (by omega) (by omega)⟩

theorem sound_new (T : Layout) : Sound T (setUp T.hashLength T.size T.version none) := by
  rw [setUp_new]
  have unused : ∀ i < T.size, keyAt T.hashLength ⟨T.format, newFile T, some ∅, some [], zeros T.el, 0, none, 0, false⟩
      (i * T.el) = free T.hashLength :=
    fun i inside => keyAt_newFile inside
  have nothing : ∀ i, slotAt T ⟨T.format, newFile T, some ∅, some [], zeros T.el, 0, none, 0, false⟩ i = .free := by
    intro i
    unfold slotAt
    exact if_neg fun both => both.2 (unused i both.1)
  constructor
  case format => rfl
  case length => exact length_newFile T
  case header => exact header_newFile
  case bits =>
    intro mapped bits i inside
    obtain rfl := Option.some.inj bits
    exact iff_of_false (Finset.notMem_empty i) (not_not_intro (unused i inside))
  case table =>
    constructor
    · intro k i j _ held
      rw [nothing] at held
      cases held
    · intro k i _ held
      rw [nothing] at held
      cases held
  case vb => exact length_zeros _

/-! ### Calls -/

theorem put_closed (closed : s.closed = true) (value : Int) : put T.hashLength s key value = (s, .error .mapClosed) := by
  rw [put, if_pos closed]

theorem put_stored (sound : Sound T s) (plain : IsKey T key) (opened : s.closed = false) (stored : StoredAt T s key i)
    (value : Int) : put T.hashLength s key value = (s, .ok false) := by
  rw [put, if_neg (by rw [opened]; exact Bool.false_ne_true), insertionIndex_stored sound plain stored]
  exact if_pos (by omega)

theorem put_absent (sound : Sound T s) (plain : IsKey T key) (opened : s.closed = false)
    (absent : ∀ j, ¬ StoredAt T s key j) (value : Int) :
    (∃ i, put T.hashLength s key value = (written T s key value i, .ok s.mapped.isSome) ∧
      Vacant (slotAt T s) (nextOf T key) (homeOf T key) i ∧ ¬ Stuck T s key) ∨
    (put T.hashLength s key value = (s, .ok false) ∧ Stuck T s key) ∨
    (put T.hashLength s key value = (s, .error .illegalState) ∧ ∀ j < T.size, slotAt T s j ≠ .free) := by
  have unopened : ¬ s.closed = true := by
    rw [opened]
    exact Bool.false_ne_true
  rcases insertionIndex_absent sound plain absent with ⟨i, found, vacant, moves⟩ | ⟨found, stuck⟩ | ⟨found, full⟩
  · refine .inl ⟨i, ?_, vacant, moves⟩
    have width := length_record plain value
    have buffer : overwrite s.vb 0 (key ++ encode T.version value) = key ++ encode T.version value := by
      rw [overwrite, List.take_zero, List.nil_append, Nat.zero_add, width, ← sound.vb, List.drop_length, List.append_nil]
    have version : s.format.version = T.version := by rw [sound.format]; rfl
    have offset : s.format.offset = T.offset := by rw [sound.format]; rfl
    have el : s.format.el = T.el := by rw [sound.format]; rfl
    rw [put, if_neg unopened, found]
    dsimp only
    rw [if_neg (by omega), Int.toNat_natCast, version, offset, el, offset_div, buffer, written]
    cases bits : s.mapped <;> rfl
  · refine .inr (.inl ⟨?_, stuck⟩)
    rw [put, if_neg unopened, found]
  · refine .inr (.inr ⟨?_, full⟩)
    rw [put, if_neg unopened, found]

theorem get_eq (opened : s.closed = false) :
    get T.hashLength s key = .ok ((contents T s key).getD (-1)) := by
  rw [get, if_neg (by rw [opened]; exact Bool.false_ne_true), contents]
  cases index T.hashLength s key with
  | error e => rfl
  | ok pos =>
    dsimp only
    split <;> rfl

theorem containsKey_eq (sound : Sound T s) (plain : IsKey T key) (opened : s.closed = false) :
    containsKey T.hashLength s key = .ok (contents T s key).isSome := by
  have unopened : ¬ s.closed = true := by
    rw [opened]
    exact Bool.false_ne_true
  by_cases known : ∃ i, StoredAt T s key i
  · obtain ⟨i, stored⟩ := known
    rw [containsKey, if_neg unopened, index_stored sound plain stored, contents_stored sound plain stored]
    exact congrArg Except.ok (decide_eq_true (Int.natCast_nonneg _))
  · have absent := not_exists.mp known
    rw [containsKey, if_neg unopened, contents_absent sound plain absent]
    rcases index_absent sound plain absent with result | result <;> rw [result] <;> rfl

end EncryptedDedup.SDFS.SimpleByteArrayLongMap
