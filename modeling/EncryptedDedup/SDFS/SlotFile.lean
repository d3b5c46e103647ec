import EncryptedDedup.Lib.DoubleHashing
import EncryptedDedup.Lib.Overlay
import Mathlib.Data.Finset.Insert

/-!
# Hash tables in a mapped file

`ProgressiveFileByteArrayLongMap` and the shards of `ShardedFileByteArrayLongMap2` keep their keys in
slots of a file, with a bit for each slot that is mapped or removed, and probe them the same way.
-/

namespace EncryptedDedup.SlotFile
open OpenAddressing

/-- The constants of a table with so many `long`s behind each key. Byte offsets are `int`s. -/
structure Layout (words : Nat) where
  hashLength : Nat
  size : Nat
  prime : size.Prime
  long : 12 ≤ hashLength
  mappable : size * (hashLength + 8 * words) < 2 ^ 31

inductive TableError where
  /-- `ArithmeticException`: a table of two slots divides by zero for its probe. -/
  | arithmetic
  | hashtableFull
  /-- `IndexOutOfBoundsException` of a bit set. -/
  | indexOutOfBounds
  | bufferOverflow
  | io
  deriving DecidableEq

structure InsertRecord where
  inserted : Bool
  pos : Int
  deriving DecidableEq

structure Slots where
  kFC : Bytes
  mapped : Finset Nat
  removed : Finset Nat

variable {words : Nat} (T : Layout words) (f : Slots)

def Layout.el : Nat := T.hashLength + 8 * words

def Layout.free : Bytes := List.replicate T.hashLength 0

def Layout.removed : Bytes := List.replicate T.hashLength 1

/-- A key that callers use: none of the two patterns. -/
structure IsKey (key : Bytes) : Prop where
  length : key.length = T.hashLength
  not_free : key ≠ T.free
  not_removed : key ≠ T.removed

/-- `buf.position(8); buf.getInt() & 0x7fffffff`. -/
def hashOf (key : Bytes) : Nat := ofLE (slice key 8 4).reverse % 2 ^ 31

def hashFunc1 (hash : Nat) : Nat := hash % T.size

def isFree (pos : Nat) : Bool := !(decide (pos ∈ f.mapped) || decide (pos ∈ f.removed))

/-- `kFC.position(index); kFC.get(current)`. -/
def keyAt (index : Nat) : Bytes := slice f.kFC index T.hashLength

def probeOf (hash : Nat) : Except TableError Nat :=
  if T.size = 2 then .error .arithmetic else .ok ((1 + hash % (T.size - 2)) * T.el)

/-- `index -= probe; if (index < 0) index += length`. -/
def stepBack (probe index : Nat) : Nat := if index < probe then index + T.size * T.el - probe else index - probe

/-- The loop of `indexRehashed`, for at most so many turns. It ends at `loopIndex`, after `size` turns at most. -/
def indexRehashed (key : Bytes) (probe loopIndex : Nat) : Nat → Nat → Int
  | 0, _ => -1
  | n + 1, index =>
    let index := stepBack T probe index
    if isFree f (index / T.el) then -1
    else if keyAt T f index = key then index
    else if index = loopIndex then -1
    else indexRehashed key probe loopIndex n index

/-- The offset of the slot of a key, or -1. -/
def index (key : Bytes) : Except TableError Int :=
  let hash := hashOf key
  let index := hashFunc1 T hash
  if isFree f index then .ok (-1)
  else
    let index := index * T.el
    if keyAt T f index = key then .ok index
    else do
      let probe ← probeOf T hash
      .ok (indexRehashed T f key probe index T.size index)

/-- The offset of a key for the callers that return alike if it is not there and if `index` throws. -/
def locate (key : Bytes) : Option Nat :=
  match index T f key with
  | .error _ => none
  | .ok pos => if pos = -1 then none else some pos.toNat

def longAt (pos : Nat) : Int := ofBE64 (slice f.kFC pos 8)

/-- `(int) (size * loadFactor)`. -/
def maxSz : Nat := T.size * 3 / 4

/-- What `insertKeyRehash` does when no free slot was found. -/
def noFreeSlot (firstRemoved : Int) : Except TableError Int :=
  if firstRemoved = -1 then .error .hashtableFull else .ok firstRemoved

/-- The loop of `insertKeyRehash`. A negative result says where the key is stored. -/
def insertKeyRehash (key : Bytes) (probe loopIndex : Nat) (mightExist : Bool) : Nat → Nat → Int → Except TableError Int
  | 0, _, firstRemoved => noFreeSlot firstRemoved
  | n + 1, index, firstRemoved =>
    if index / T.el ∈ f.removed ∧ firstRemoved = -1 ∧ mightExist = false then .ok (index : Int)
    else
      let firstRemoved : Int := if index / T.el ∈ f.removed ∧ firstRemoved = -1 then (index : Int) else firstRemoved
      let index := stepBack T probe index
      if isFree f (index / T.el) then .ok (if firstRemoved = -1 then (index : Int) else firstRemoved)
      else if mightExist = true ∧ keyAt T f index = key then .ok (-(index : Int) - 1)
      else if index = loopIndex then noFreeSlot firstRemoved
      else insertKeyRehash key probe loopIndex mightExist n index firstRemoved

def insertionIndex (key : Bytes) (mightExist : Bool) : Except TableError Int :=
  let hash := hashOf key
  let index := hashFunc1 T hash
  if isFree f index then .ok (index * T.el : Nat)
  else
    let index := index * T.el
    if mightExist = true ∧ keyAt T f index = key then .ok (-(index : Int) - 1)
    else do
      let probe ← probeOf T hash
      insertKeyRehash T f key probe index mightExist T.size index (-1)

/-! ### The table of the file -/

/-- A table of two slots has no probe; the walk that stays at home stands for it. -/
def stepOf (key : Bytes) : Nat := if T.size = 2 then 2 else 1 + hashOf key % (T.size - 2)

def nextOf (key : Bytes) (i : Nat) : Nat := if i < stepOf T key then i + T.size - stepOf T key else i - stepOf T key

def homeOf (key : Bytes) : Nat := hashFunc1 T (hashOf key)

def slotAt (i : Nat) : Slot Bytes :=
  if i ∈ f.mapped then .held (keyAt T f (i * T.el)) else if i ∈ f.removed then .removed else .free

structure Consistent : Prop where
  length : f.kFC.length = T.size * T.el
  removed_lt : ∀ i ∈ f.removed, i < T.size
  apart : ∀ i ∈ f.removed, i ∉ f.mapped
  tombstone : ∀ i ∈ f.removed, keyAt T f (i * T.el) = T.removed
  table : Table (IsKey T) (slotAt T f) (nextOf T) (homeOf T)

variable {T f}

theorem hashLength_le (T : Layout words) : T.hashLength ≤ T.el := Nat.le_add_right _ _

theorem el_pos (T : Layout words) : 0 < T.el := Nat.lt_of_lt_of_le (by decide) (T.long.trans (hashLength_le T))

theorem size_ge (T : Layout words) : 2 ≤ T.size := T.prime.two_le

theorem offset_div (i : Nat) : i * T.el / T.el = i := Nat.mul_div_cancel i (el_pos T)

theorem offset_inj {i j : Nat} : i * T.el = j * T.el ↔ i = j := Nat.mul_left_inj (el_pos T).ne'

theorem nextOf_lt (key : Bytes) {i : Nat} (inside : i < T.size) : nextOf T key i < T.size :=
  DoubleHashing.back_lt (size_ge T) (hashOf key) inside

theorem homeOf_lt (key : Bytes) : homeOf T key < T.size := Nat.mod_lt _ (T.prime.pos)

theorem stepBack_offset (key : Bytes) (i : Nat) : stepBack T (stepOf T key * T.el) (i * T.el) = nextOf T key i * T.el :=
  DoubleHashing.back_mul (el_pos T) (stepOf T key) i

theorem nextOf_home (key : Bytes) (two : T.size = 2) : nextOf T key (homeOf T key) = homeOf T key :=
  DoubleHashing.back_home (hashOf key) two (homeOf_lt key)

theorem iterate_nextOf_away (key : Bytes) (more : T.size ≠ 2) (l : Nat) (positive : 0 < l) (within : l < T.size) :
    (nextOf T key)^[l] (homeOf T key) ≠ homeOf T key :=
  DoubleHashing.iterate_back_away T.prime more (hashOf key) (homeOf T key) l positive within

theorem iterate_nextOf_covers (key : Bytes) (more : T.size ≠ 2) {i : Nat} (inside : i < T.size) :
    ∃ n < T.size, (nextOf T key)^[n] (homeOf T key) = i :=
  DoubleHashing.iterate_back_covers T.prime more (hashOf key) (homeOf_lt key) inside

theorem isFree_iff (i : Nat) : isFree f i = true ↔ slotAt T f i = .free := by
  unfold isFree slotAt
  by_cases mapped : i ∈ f.mapped
  · simp [mapped]
  · by_cases removed : i ∈ f.removed
    · simp [mapped, removed]
    · simp [mapped, removed]

theorem slotAt_held {key : Bytes} {i : Nat} : slotAt T f i = .held key ↔ i ∈ f.mapped ∧ keyAt T f (i * T.el) = key := by
  unfold slotAt
  by_cases mapped : i ∈ f.mapped
  · simp [mapped]
  · by_cases removed : i ∈ f.removed
    · simp [mapped, removed]
    · simp [mapped, removed]

theorem slotAt_removed (consistent : Consistent T f) (i : Nat) : slotAt T f i = .removed ↔ i ∈ f.removed := by
  unfold slotAt
  by_cases removed : i ∈ f.removed
  · simp [removed, consistent.apart i removed]
  · by_cases mapped : i ∈ f.mapped
    · simp [mapped, removed]
    · simp [mapped, removed]

theorem keyAt_iff (consistent : Consistent T f) {key : Bytes} (plain : IsKey T key) {i : Nat}
    (taken : slotAt T f i ≠ .free) : keyAt T f (i * T.el) = key ↔ slotAt T f i = .held key := by
  rw [slotAt_held]
  constructor
  · intro same
    refine ⟨?_, same⟩
    by_contra unmapped
    by_cases removed : i ∈ f.removed
    · exact plain.not_removed (same ▸ consistent.tombstone i removed)
    · exact taken (by rw [slotAt, if_neg unmapped, if_neg removed])
  · exact And.right

theorem probeOf_eq (key : Bytes) (more : T.size ≠ 2) : probeOf T (hashOf key) = .ok (stepOf T key * T.el) := by
  rw [probeOf, if_neg more, stepOf, if_neg more]

/-! ### Search -/

def offsetOf (T : Layout words) : Option Nat → Int
  | none => -1
  | some i => (i * T.el : Nat)

theorem indexRehashed_eq (consistent : Consistent T f) {key : Bytes} (plain : IsKey T key) (n i home : Nat) :
    indexRehashed T f key (stepOf T key * T.el) (home * T.el) n (i * T.el) =
      offsetOf T (search (slotAt T f) (nextOf T key) key home n i) := by
  induction n generalizing i with
  | zero => rfl
  | succ n ih =>
    rw [indexRehashed, search, stepBack_offset, offset_div]
    by_cases free : slotAt T f (nextOf T key i) = .free
    · rw [if_pos ((isFree_iff _).mpr free), if_pos free]
      rfl
    · rw [if_neg (mt (isFree_iff _).mp free), if_neg free]
      by_cases held : slotAt T f (nextOf T key i) = .held key
      · rw [if_pos ((keyAt_iff consistent plain free).mpr held), if_pos held]
        rfl
      · rw [if_neg (mt (keyAt_iff consistent plain free).mp held), if_neg held]
        by_cases back : nextOf T key i = home
        · rw [if_pos (offset_inj.mpr back), if_pos back]
          rfl
        · rw [if_neg (mt offset_inj.mp back), if_neg back]
          exact ih _

theorem index_eq (consistent : Consistent T f) {key : Bytes} (plain : IsKey T key) :
    index T f key = .ok (offsetOf T (find (slotAt T f) (nextOf T key) key (homeOf T key) T.size)) ∨
      index T f key = .error .arithmetic ∧ find (slotAt T f) (nextOf T key) key (homeOf T key) T.size = none := by
  rw [index, ← homeOf]
  unfold find
  by_cases free : slotAt T f (homeOf T key) = .free
  · rw [if_pos ((isFree_iff _).mpr free), if_pos free]
    exact .inl rfl
  · rw [if_neg (mt (isFree_iff _).mp free), if_neg free]
    by_cases held : slotAt T f (homeOf T key) = .held key
    · rw [if_pos ((keyAt_iff consistent plain free).mpr held), if_pos held]
      exact .inl rfl
    · rw [if_neg (mt (keyAt_iff consistent plain free).mp held), if_neg held]
      by_cases two : T.size = 2
      · refine .inr ⟨by rw [probeOf, if_pos two]; rfl, ?_⟩
        rw [two, search, nextOf_home key two, if_neg free, if_neg held, if_pos rfl]
      · rw [probeOf_eq key two]
        exact .inl (congrArg Except.ok (indexRehashed_eq consistent plain _ _ _))

theorem index_stored (consistent : Consistent T f) {key : Bytes} (plain : IsKey T key) {i : Nat}
    (held : slotAt T f i = .held key) : index T f key = .ok (i * T.el : Nat) := by
  have found := (consistent.table.find_iff homeOf_lt (fun k j => nextOf_lt k) plain i).mpr held
  rcases index_eq consistent plain with result | ⟨-, absent⟩
  · rw [result, found]
    rfl
  · rw [found] at absent
    cases absent

theorem index_absent (consistent : Consistent T f) {key : Bytes} (plain : IsKey T key)
    (absent : ∀ i, slotAt T f i ≠ .held key) : index T f key = .ok (-1) ∨ index T f key = .error .arithmetic := by
  have none_found : find (slotAt T f) (nextOf T key) key (homeOf T key) T.size = none := by
    cases found : find (slotAt T f) (nextOf T key) key (homeOf T key) T.size with
    | none => rfl
    | some i => exact absurd (find_sound found) (absent i)
  rcases index_eq consistent plain with result | ⟨result, -⟩
  · rw [none_found] at result
    exact .inl result
  · exact .inr result

theorem locate_stored (consistent : Consistent T f) {key : Bytes} (plain : IsKey T key) {i : Nat}
    (held : slotAt T f i = .held key) : locate T f key = some (i * T.el) := by
  rw [locate, index_stored consistent plain held]
  exact if_neg (by omega)

theorem locate_absent (consistent : Consistent T f) {key : Bytes} (plain : IsKey T key)
    (absent : ∀ i, slotAt T f i ≠ .held key) : locate T f key = none := by
  unfold locate
  rcases index_absent consistent plain absent with result | result <;> rw [result]
  rfl

/-! ### Insertion -/

def placeOf (T : Layout words) : Place → Except TableError Int
  | .stored i => .ok (-(i * T.el : Nat) - 1)
  | .vacant i => .ok (i * T.el : Nat)
  | .full => .error .hashtableFull

theorem offsetOf_some (i : Nat) : offsetOf T (some i) ≠ -1 := by
  rw [offsetOf]
  omega

theorem offsetOf_eq_none {firstRemoved : Option Nat} : offsetOf T firstRemoved = -1 ↔ firstRemoved = none := by
  cases firstRemoved with
  | none => exact iff_of_true rfl rfl
  | some i => exact iff_of_false (offsetOf_some i) (Option.some_ne_none i)

theorem noFreeSlot_eq (firstRemoved : Option Nat) :
    noFreeSlot (offsetOf T firstRemoved) = placeOf T (Place.ofRemoved firstRemoved) := by
  unfold noFreeSlot
  cases firstRemoved with
  | none => rfl
  | some i => exact if_neg (offsetOf_some i)

theorem insertKeyRehash_eq (consistent : Consistent T f) {key : Bytes} (plain : IsKey T key) (mightExist : Bool)
    (n i home : Nat) (firstRemoved : Option Nat) :
    insertKeyRehash T f key (stepOf T key * T.el) (home * T.el) mightExist n (i * T.el) (offsetOf T firstRemoved) =
      placeOf T (vacate (slotAt T f) (nextOf T key) key mightExist home n i firstRemoved) := by
  induction n generalizing i firstRemoved with
  | zero => exact noFreeSlot_eq firstRemoved
  | succ n ih =>
    rw [insertKeyRehash, vacate, stepBack_offset]
    dsimp only
    simp only [offset_div, offsetOf_eq_none, ← slotAt_removed consistent]
    by_cases first : slotAt T f i = .removed ∧ firstRemoved = none ∧ mightExist = false
    · rw [if_pos first, if_pos first]
      rfl
    · rw [if_neg first, if_neg first]
      have remembered : (if slotAt T f i = .removed ∧ firstRemoved = none then ((i * T.el : Nat) : Int)
          else offsetOf T firstRemoved) =
          offsetOf T (if slotAt T f i = .removed ∧ firstRemoved = none then some i else firstRemoved) := by
        split <;> rfl
      rw [remembered]
      generalize (if slotAt T f i = .removed ∧ firstRemoved = none then some i else firstRemoved) = firstRemoved'
      by_cases free : slotAt T f (nextOf T key i) = .free
      · rw [if_pos ((isFree_iff _).mpr free), if_pos free]
        cases firstRemoved' with
        | none => rfl
        | some j => exact congrArg Except.ok (if_neg (offsetOf_some j))
      · rw [if_neg (mt (isFree_iff _).mp free), if_neg free]
        simp only [keyAt_iff consistent plain free]
        by_cases held : mightExist = true ∧ slotAt T f (nextOf T key i) = .held key
        · rw [if_pos held, if_pos held]
          rfl
        · rw [if_neg held, if_neg held]
          by_cases back : nextOf T key i = home
          · rw [if_pos (offset_inj.mpr back), if_pos back]
            exact noFreeSlot_eq firstRemoved'
          · rw [if_neg (mt offset_inj.mp back), if_neg back]
            exact ih _ _

/-- A table of two slots has no slot to try but the home. -/
def Stuck (T : Layout words) (f : Slots) (key : Bytes) (mightExist : Bool) : Prop :=
  T.size = 2 ∧ slotAt T f (homeOf T key) ≠ .free ∧ ¬ (mightExist = true ∧ slotAt T f (homeOf T key) = .held key)

theorem insertionIndex_eq (consistent : Consistent T f) {key : Bytes} (plain : IsKey T key) {mightExist : Bool}
    (moves : ¬ Stuck T f key mightExist) :
    insertionIndex T f key mightExist =
      placeOf T (place (slotAt T f) (nextOf T key) key mightExist (homeOf T key) T.size) := by
  rw [insertionIndex, ← homeOf]
  unfold place
  by_cases free : slotAt T f (homeOf T key) = .free
  · rw [if_pos ((isFree_iff _).mpr free), if_pos free]
    rfl
  · rw [if_neg (mt (isFree_iff _).mp free), if_neg free]
    simp only [keyAt_iff consistent plain free]
    by_cases held : mightExist = true ∧ slotAt T f (homeOf T key) = .held key
    · rw [if_pos held, if_pos held]
      rfl
    · rw [if_neg held, if_neg held, probeOf_eq key fun two => moves ⟨two, free, held⟩]
      exact insertKeyRehash_eq consistent plain mightExist _ _ _ none

theorem insertionIndex_stuck (consistent : Consistent T f) {key : Bytes} (plain : IsKey T key) {mightExist : Bool}
    (stuck : Stuck T f key mightExist) : insertionIndex T f key mightExist = .error .arithmetic := by
  obtain ⟨two, taken, held⟩ := stuck
  rw [← keyAt_iff consistent plain taken] at held
  rw [insertionIndex, ← homeOf, if_neg (mt (isFree_iff _).mp taken)]
  dsimp only
  rw [if_neg held, probeOf, if_pos two]
  rfl

theorem insertionIndex_stored (consistent : Consistent T f) {key : Bytes} (plain : IsKey T key) {i : Nat}
    (held : slotAt T f i = .held key) : insertionIndex T f key true = .ok (-(i * T.el : Nat) - 1) := by
  have placed := (consistent.table.place_iff homeOf_lt (fun k j => nextOf_lt k) plain i).mpr held
  have moves : ¬ Stuck T f key true := by
    rintro ⟨two, -, elsewhere⟩
    obtain ⟨n, here, -⟩ := consistent.table.reached key i plain held
    rw [Function.iterate_fixed (nextOf_home key two)] at here
    exact elsewhere ⟨rfl, here ▸ held⟩
  rw [insertionIndex_eq consistent plain moves, placed]
  rfl

theorem insertionIndex_absent (consistent : Consistent T f) {key : Bytes} (plain : IsKey T key)
    (absent : ∀ i, slotAt T f i ≠ .held key) {mightExist : Bool} {pos : Int}
    (result : insertionIndex T f key mightExist = .ok pos) :
    ∃ i, pos = (i * T.el : Nat) ∧ Vacant (slotAt T f) (nextOf T key) (homeOf T key) i := by
  by_cases stuck : Stuck T f key mightExist
  · rw [insertionIndex_stuck consistent plain stuck] at result
    cases result
  · rw [insertionIndex_eq consistent plain stuck] at result
    cases here : place (slotAt T f) (nextOf T key) key mightExist (homeOf T key) T.size with
    | stored i => exact absurd (place_sound here) (absent i)
    | vacant i =>
      rw [here] at result
      exact ⟨i, (Except.ok.inj result).symm, place_vacant here⟩
    | full =>
      rw [here] at result
      cases result

/-- A new key has a place as long as a slot is not mapped, except that a table of two slots has it at the home
of the key only. -/
theorem insertionIndex_ok_iff (consistent : Consistent T f) {key : Bytes} (plain : IsKey T key)
    (absent : ∀ i, slotAt T f i ≠ .held key) (mightExist : Bool) :
    (∃ pos, insertionIndex T f key mightExist = .ok pos) ↔
      (∃ i < T.size, i ∉ f.mapped) ∧ (T.size = 2 → slotAt T f (homeOf T key) = .free) := by
  constructor
  · rintro ⟨pos, result⟩
    obtain ⟨i, -, vacant⟩ := insertionIndex_absent consistent plain absent result
    refine ⟨⟨i, vacant.reached.lt (homeOf_lt key) fun _ => nextOf_lt key, fun member => ?_⟩, fun two => ?_⟩
    · have unused := vacant.unused
      rw [slotAt, if_pos member] at unused
      rcases unused with free | removed
      · cases free
      · cases removed
    · by_contra taken
      rw [insertionIndex_stuck consistent plain ⟨two, taken, fun both => absent _ both.2⟩] at result
      cases result
  · rintro ⟨⟨i, inside, unmapped⟩, free⟩
    have moves : ¬ Stuck T f key mightExist := fun stuck => stuck.2.1 (free stuck.1)
    have found : place (slotAt T f) (nextOf T key) key mightExist (homeOf T key) T.size ≠ .full := by
      by_cases two : T.size = 2
      · rw [place, if_pos (free two)]
        exact fun same => nomatch same
      · apply place_ne_full (iterate_nextOf_away key two) (iterate_nextOf_covers key two inside)
        rw [slotAt, if_neg unmapped]
        split
        · exact .inr rfl
        · exact .inl rfl
    rw [insertionIndex_eq consistent plain moves]
    cases here : place (slotAt T f) (nextOf T key) key mightExist (homeOf T key) T.size with
    | stored i => exact absurd (place_sound here) (absent i)
    | vacant i => exact ⟨_, rfl⟩
    | full => exact absurd here found

/-! ### Writes -/

theorem part_fits (consistent : Consistent T f) {i p : Nat} (inside : i < T.size) {s : Bytes}
    (fits : p + s.length ≤ T.el) : i * T.el + p + s.length ≤ f.kFC.length := by
  have above : (i + 1) * T.el ≤ T.size * T.el := Nat.mul_le_mul_right _ inside
  rw [Nat.succ_mul] at above
  rw [consistent.length]
  omega

theorem slice_other_part (consistent : Consistent T f) {i j p o n : Nat} {s : Bytes} (inside : i < T.size)
    (fits : p + s.length ≤ T.el) (part : o + n ≤ T.el) (other : j ≠ i) :
    slice (overwrite f.kFC (i * T.el + p) s) (j * T.el + o) n = slice f.kFC (j * T.el + o) n := by
  apply slice_overwrite_apart (part_fits consistent inside fits)
  rcases Nat.lt_or_gt_of_ne other with before | behind
  · have above : (j + 1) * T.el ≤ i * T.el := Nat.mul_le_mul_right _ before
    rw [Nat.succ_mul] at above
    omega
  · have above : (i + 1) * T.el ≤ j * T.el := Nat.mul_le_mul_right _ behind
    rw [Nat.succ_mul] at above
    omega

theorem slot_fits (consistent : Consistent T f) {i : Nat} (inside : i < T.size) {s : Bytes} (fits : s.length ≤ T.el) :
    i * T.el + s.length ≤ f.kFC.length := @part_fits _ _ _ consistent i 0 inside s ((Nat.zero_add _).trans_le fits)

theorem slice_other (consistent : Consistent T f) {i j o n : Nat} {s : Bytes} (inside : i < T.size)
    (fits : s.length ≤ T.el) (part : o + n ≤ T.el) (other : j ≠ i) :
    slice (overwrite f.kFC (i * T.el) s) (j * T.el + o) n = slice f.kFC (j * T.el + o) n :=
  @slice_other_part _ _ _ consistent i j 0 o n s inside ((Nat.zero_add _).trans_le fits) part other

theorem slice_other_key (consistent : Consistent T f) {i j : Nat} {s : Bytes} (inside : i < T.size)
    (fits : s.length ≤ T.el) (other : j ≠ i) :
    slice (overwrite f.kFC (i * T.el) s) (j * T.el) T.hashLength = slice f.kFC (j * T.el) T.hashLength :=
  @slice_other _ _ _ consistent i j 0 T.hashLength s inside fits ((Nat.zero_add _).trans_le (hashLength_le T)) other

theorem slice_own (consistent : Consistent T f) {i : Nat} {s v : Bytes} (inside : i < T.size)
    (fits : (s ++ v).length ≤ T.el) :
    slice (overwrite f.kFC (i * T.el) (s ++ v)) (i * T.el) s.length = s ∧
    slice (overwrite f.kFC (i * T.el) (s ++ v)) (i * T.el + s.length) v.length = v := by
  have room := slot_fits consistent inside fits
  rw [List.length_append] at room
  rw [← overwrite_overwrite (by omega)]
  constructor
  · rw [slice_overwrite_apart (by rw [length_overwrite (by omega)]; omega) (.inl (Nat.le_refl _)),
      slice_overwrite (by omega)]
  · exact slice_overwrite (by rw [length_overwrite (by omega)]; omega)

/-- The file after a key and what belongs to it are put into a slot. -/
def Slots.hold (T : Layout words) (f : Slots) (i : Nat) (key value : Bytes) : Slots where
  kFC := overwrite f.kFC (i * T.el) (key ++ value)
  mapped := insert i f.mapped
  removed := f.removed.erase i

/-- The file after a slot is overwritten with `REMOVED`, with its bits as they were. -/
def Slots.spoil (T : Layout words) (f : Slots) (i : Nat) (value : Bytes) : Slots :=
  { f with kFC := overwrite f.kFC (i * T.el) (T.removed ++ value) }

/-- The file after a slot is overwritten with `REMOVED` and marked as removed. -/
def Slots.drop (T : Layout words) (f : Slots) (i : Nat) (value : Bytes) : Slots where
  kFC := overwrite f.kFC (i * T.el) (T.removed ++ value)
  mapped := f.mapped.erase i
  removed := insert i f.removed

theorem slotAt_hold (consistent : Consistent T f) {key value : Bytes} (plain : IsKey T key) {i : Nat}
    (inside : i < T.size) (room : T.hashLength + value.length ≤ T.el) :
    slotAt T (f.hold T i key value) i = .held key ∧ ∀ j, j ≠ i → slotAt T (f.hold T i key value) j = slotAt T f j := by
  have fits : (key ++ value).length ≤ T.el := by rwa [List.length_append, plain.length]
  constructor
  · have own := (slice_own consistent inside fits).1
    rw [plain.length] at own
    exact slotAt_held.mpr ⟨Finset.mem_insert_self i _, own⟩
  · intro j other
    have same : keyAt T (f.hold T i key value) (j * T.el) = keyAt T f (j * T.el) :=
      slice_other_key consistent inside fits other
    unfold slotAt
    rw [same]
    simp [Slots.hold, other]

theorem length_removed (T : Layout words) : T.removed.length = T.hashLength := List.length_replicate

theorem keyAt_spoil (consistent : Consistent T f) {value : Bytes} {i : Nat} (inside : i < T.size)
    (room : T.hashLength + value.length ≤ T.el) :
    keyAt T (f.spoil T i value) (i * T.el) = T.removed ∧
      ∀ j, j ≠ i → keyAt T (f.spoil T i value) (j * T.el) = keyAt T f (j * T.el) := by
  have fits : (T.removed ++ value).length ≤ T.el := by rwa [List.length_append, length_removed]
  constructor
  · have own := (slice_own consistent inside fits).1
    rwa [length_removed] at own
  · intro j other
    exact slice_other_key consistent inside fits other

theorem slotAt_spoil (consistent : Consistent T f) {value : Bytes} {i : Nat} (inside : i < T.size)
    (room : T.hashLength + value.length ≤ T.el) (member : i ∈ f.mapped) :
    slotAt T (f.spoil T i value) i = .held T.removed ∧
      ∀ j, j ≠ i → slotAt T (f.spoil T i value) j = slotAt T f j := by
  obtain ⟨own, apart⟩ := keyAt_spoil consistent inside room
  constructor
  · exact slotAt_held.mpr ⟨member, own⟩
  · intro j other
    unfold slotAt
    rw [apart j other]
    rfl

theorem slotAt_drop (consistent : Consistent T f) {value : Bytes} {i : Nat} (inside : i < T.size)
    (room : T.hashLength + value.length ≤ T.el) :
    slotAt T (f.drop T i value) i = .removed ∧ ∀ j, j ≠ i → slotAt T (f.drop T i value) j = slotAt T f j := by
  obtain ⟨-, apart⟩ := keyAt_spoil consistent inside room
  constructor
  · unfold slotAt
    simp [Slots.drop]
  · intro j other
    have same : keyAt T (f.drop T i value) (j * T.el) = keyAt T f (j * T.el) := apart j other
    unfold slotAt
    rw [same]
    simp [Slots.drop, other]

theorem Consistent.hold (consistent : Consistent T f) {key value : Bytes} (plain : IsKey T key) {i : Nat}
    (vacant : Vacant (slotAt T f) (nextOf T key) (homeOf T key) i) (absent : ∀ j, slotAt T f j ≠ .held key)
    (room : T.hashLength + value.length ≤ T.el) : Consistent T (f.hold T i key value) := by
  have inside : i < T.size := vacant.reached.lt (homeOf_lt key) (fun j => nextOf_lt key)
  have fits : (key ++ value).length ≤ T.el := by rwa [List.length_append, plain.length]
  obtain ⟨here, others⟩ := slotAt_hold consistent plain inside room
  constructor
  · exact (length_overwrite (slot_fits consistent inside fits)).trans consistent.length
  · exact fun j member => consistent.removed_lt j (Finset.mem_of_mem_erase member)
  · intro j member
    have other := Finset.ne_of_mem_erase member
    exact fun mapped => consistent.apart j (Finset.mem_of_mem_erase member) (Finset.mem_of_mem_insert_of_ne mapped other)
  · intro j member
    have other := Finset.ne_of_mem_erase member
    refine Eq.trans ?_ (consistent.tombstone j (Finset.mem_of_mem_erase member))
    exact slice_other_key consistent inside fits other
  · exact consistent.table.insert vacant absent here others

theorem Consistent.spoil (consistent : Consistent T f) {value : Bytes} {i : Nat} (inside : i < T.size)
    (room : T.hashLength + value.length ≤ T.el) (member : i ∈ f.mapped) : Consistent T (f.spoil T i value) := by
  have fits : (T.removed ++ value).length ≤ T.el := by rwa [List.length_append, length_removed]
  obtain ⟨-, apart⟩ := keyAt_spoil consistent inside room
  obtain ⟨here, others⟩ := slotAt_spoil consistent inside room member
  constructor
  · exact (length_overwrite (slot_fits consistent inside fits)).trans consistent.length
  · exact consistent.removed_lt
  · exact consistent.apart
  · intro j gone
    have other : j ≠ i := by
      rintro rfl
      exact consistent.apart j gone member
    exact (apart j other).trans (consistent.tombstone j gone)
  · apply consistent.table.lose ?_ ?_ others
    · rw [here]
      exact fun same => nomatch same
    · intro key plain held
      rw [here] at held
      exact plain.not_removed (Slot.held.inj held).symm

theorem Consistent.drop (consistent : Consistent T f) {value : Bytes} {i : Nat} (inside : i < T.size)
    (room : T.hashLength + value.length ≤ T.el) : Consistent T (f.drop T i value) := by
  have fits : (T.removed ++ value).length ≤ T.el := by rwa [List.length_append, length_removed]
  obtain ⟨bytes, apart⟩ := keyAt_spoil consistent inside room
  obtain ⟨here, others⟩ := slotAt_drop consistent inside room
  constructor
  · exact (length_overwrite (slot_fits consistent inside fits)).trans consistent.length
  · intro j member
    rcases Finset.mem_insert.mp member with rfl | before
    · exact inside
    · exact consistent.removed_lt j before
  · intro j member mapped
    rcases Finset.mem_insert.mp member with rfl | before
    · exact Finset.notMem_erase j _ mapped
    · exact consistent.apart j before (Finset.mem_of_mem_erase mapped)
  · intro j member
    by_cases same : j = i
    · rw [same]
      exact bytes
    · exact (apart j same).trans (consistent.tombstone j (Finset.mem_of_mem_insert_of_ne member same))
  · apply consistent.table.lose ?_ ?_ others
    · rw [here]
      exact fun same => nomatch same
    · intro key _ held
      rw [here] at held
      cases held

theorem Consistent.of_keys (consistent : Consistent T f) {f' : Slots} (mapped : f'.mapped = f.mapped)
    (removed : f'.removed = f.removed) (length : f'.kFC.length = f.kFC.length)
    (keys : ∀ i, keyAt T f' (i * T.el) = keyAt T f (i * T.el)) :
    Consistent T f' ∧ ∀ i, slotAt T f' i = slotAt T f i := by
  have slots : ∀ i, slotAt T f' i = slotAt T f i := by
    intro i
    unfold slotAt
    rw [mapped, removed, keys]
  refine ⟨⟨length.trans consistent.length, ?_, ?_, ?_, ?_⟩, slots⟩
  · rw [removed]
    exact consistent.removed_lt
  · rw [mapped, removed]
    exact consistent.apart
  · rw [removed]
    exact fun i member => (keys i).trans (consistent.tombstone i member)
  · rw [funext slots]
    exact consistent.table

/-- The file after the bits of a slot are set, as if it had a key. -/
def Slots.mark (f : Slots) (i : Nat) : Slots := { f with mapped := insert i f.mapped, removed := f.removed.erase i }

/-- A slot without a key has none because it is mapped. -/
theorem Consistent.mark (consistent : Consistent T f) {i : Nat}
    (blank : slotAt T f i = .free → ¬ IsKey T (keyAt T f (i * T.el))) :
    Consistent T (f.mark i) ∧ (∀ j key, IsKey T key → (slotAt T (f.mark i) j = .held key ↔ slotAt T f j = .held key)) ∧
      ∀ j, slotAt T (f.mark i) j = .free → slotAt T f j = .free := by
  have here : slotAt T (f.mark i) i = .held (keyAt T f (i * T.el)) :=
    slotAt_held.mpr ⟨Finset.mem_insert_self i _, rfl⟩
  have others : ∀ j, j ≠ i → slotAt T (f.mark i) j = slotAt T f j := by
    intro j other
    have same : keyAt T (f.mark i) (j * T.el) = keyAt T f (j * T.el) := rfl
    unfold slotAt
    rw [same]
    simp [Slots.mark, other]
  have bits : Table (IsKey T) (slotAt T (f.mark i)) (nextOf T) (homeOf T) ∧
      ∀ key, IsKey T key → (slotAt T (f.mark i) i = .held key ↔ slotAt T f i = .held key) := by
    by_cases mapped : i ∈ f.mapped
    · have same : slotAt T (f.mark i) = slotAt T f := by
        funext j
        by_cases own : j = i
        · rw [own, here, slotAt, if_pos mapped]
        · exact others j own
      rw [same]
      exact ⟨consistent.table, fun _ _ => Iff.rfl⟩
    · have lost : ∀ key, IsKey T key → slotAt T (f.mark i) i ≠ .held key := by
        intro key plain held
        rw [here] at held
        have bytes := Slot.held.inj held
        by_cases removed : i ∈ f.removed
        · exact plain.not_removed (bytes ▸ consistent.tombstone i removed)
        · exact blank (by rw [slotAt, if_neg mapped, if_neg removed]) (bytes ▸ plain)
      refine ⟨consistent.table.lose (by rw [here]; exact fun same => nomatch same) lost others, fun key plain => ?_⟩
      exact iff_of_false (lost key plain) fun held => mapped (slotAt_held.mp held).1
  refine ⟨⟨consistent.length, ?_, ?_, ?_, bits.1⟩, fun j key plain => ?_, fun j free => ?_⟩
  · exact fun j member => consistent.removed_lt j (Finset.mem_of_mem_erase member)
  · intro j member mapped
    rcases Finset.mem_insert.mp mapped with rfl | before
    · exact Finset.notMem_erase j _ member
    · exact consistent.apart j (Finset.mem_of_mem_erase member) before
  · exact fun j member => consistent.tombstone j (Finset.mem_of_mem_erase member)
  · by_cases own : j = i
    · rw [own]
      exact bits.2 key plain
    · rw [others j own]
  · by_cases own : j = i
    · rw [own, here] at free
      cases free
    · rwa [others j own] at free

def Slots.new (T : Layout words) : Slots := ⟨List.replicate (T.size * T.el) 0, ∅, ∅⟩

theorem consistent_new (T : Layout words) : Consistent T (Slots.new T) := by
  have free : ∀ i, slotAt T (Slots.new T) i = .free := fun i => rfl
  constructor
  · exact List.length_replicate
  · exact fun i member => absurd member (Finset.notMem_empty i)
  · exact fun i member => absurd member (Finset.notMem_empty i)
  · exact fun i member => absurd member (Finset.notMem_empty i)
  · constructor
    · intro k i j _ held
      rw [free] at held
      cases held
    · intro k i _ held
      rw [free] at held
      cases held

end EncryptedDedup.SlotFile
