import EncryptedDedup.SDFS.LongMapShard
import Mathlib.Algebra.BigOperators.Fin
import Mathlib.Data.List.Induction
import Mathlib.Tactic.NormNum.Prime

/-!
# `ShardedFileByteArrayLongMap2`

The map counts its entries in `sz`, and each shard its own in `currentSz`. No put raises `currentSz`.
-/

namespace EncryptedDedup.SDFS.LongMapShard
open SlotFile

/-- How far a pass of `claimRecords` is: what it freed, and the keys that went into the filter. -/
structure Pass where
  shard : State
  freed : Nat
  kept : List Bytes

variable (T : Layout 2)

/-- A turn of `claimRecords()` and of `claimRecords(nbf)`; only the latter has a filter to fill. -/
def claimSlot (p : Pass) (iterPos : Nat) : Pass :=
  let pos := iterPos * T.el
  let key := keyAt T p.shard.toSlots pos
  let s : State := { p.shard with claims := p.shard.claims.erase iterPos }
  if iterPos ∈ p.shard.claims then
    { p with
      shard := { s with mapped := insert iterPos s.mapped, removed := s.removed.erase iterPos }
      kept := p.kept ++ [key] }
  else if iterPos ∈ s.mapped then
    if longAt s.toSlots (pos + zl T) ≤ 0 then
      { p with
        shard := { s with
          kFC := overwrite s.kFC pos (T.removed ++ toBE64 0)
          mapped := s.mapped.erase iterPos
          removed := insert iterPos s.removed
          full := false }
        freed := p.freed + 1 }
    else { p with shard := s, kept := p.kept ++ [key] }
  else { p with shard := s }

/-- The claims are cleared before the loop reads them. -/
def claimRecords (s : State) : Pass :=
  (List.range T.size).foldl (claimSlot T) ⟨{ s with claims := ∅ }, 0, []⟩

/-- A turn of `claimRecords(nbf, lbf)`, which looks at the key and not at the bits. -/
def sweepSlot (mightContain : Bytes → Bool) (p : Pass) (iterPos : Nat) : Pass :=
  let s := p.shard
  let pos := iterPos * T.el
  let key := keyAt T s.toSlots pos
  if key ≠ T.free ∧ key ≠ T.removed then
    if mightContain key = false ∧ iterPos ∉ s.claims then
      { p with
        shard := { s with
          kFC := overwrite s.kFC pos (T.removed ++ (toBE64 0 ++ toBE64 0))
          mapped := s.mapped.erase iterPos
          removed := insert iterPos s.removed
          claims := s.claims.erase iterPos }
        freed := p.freed + 1 }
    else
      { p with
        shard := { s with mapped := insert iterPos s.mapped, claims := s.claims.erase iterPos }
        kept := p.kept ++ [key] }
  else p

def sweepRecords (mightContain : Bytes → Bool) (s : State) : Pass :=
  (List.range T.size).foldl (sweepSlot T mightContain) ⟨s, 0, []⟩

/-! ### The counter of a shard -/

variable {T}

theorem put_currentSz (s : State) (key : Bytes) (value cl : Int) (mightContain : Bool) :
    (put T s key value cl mightContain).1.currentSz = s.currentSz := by
  unfold put
  split
  · rfl
  · cases insertionIndex T s.toSlots key mightContain with
    | error e => rfl
    | ok pos =>
      dsimp only
      split <;> rfl

theorem update_currentSz (s : State) (key : Bytes) (value : Int) : (update T s key value).1.currentSz = s.currentSz := by
  unfold update
  cases locate T s.toSlots key <;> rfl

theorem remove_currentSz (s : State) (key : Bytes) (deleteChunk : Bytes → Int → Bool) :
    (remove T s key deleteChunk).1.currentSz = s.currentSz := by
  unfold remove
  cases locate T s.toSlots key with
  | none => rfl
  | some pos =>
    dsimp only
    split
    · rfl
    · split
      · rfl
      · split <;> rfl

theorem claimRecords_currentSz (s : State) : (claimRecords T s).shard.currentSz = s.currentSz := by
  unfold claimRecords
  refine List.foldlRecOn (motive := fun p : Pass => p.shard.currentSz = s.currentSz) _ _ rfl fun p same i _ => ?_
  unfold claimSlot
  dsimp only
  split
  · exact same
  · split
    · split <;> exact same
    · exact same

theorem sweepRecords_currentSz (mightContain : Bytes → Bool) (s : State) :
    (sweepRecords T mightContain s).shard.currentSz = s.currentSz := by
  unfold sweepRecords
  refine List.foldlRecOn (motive := fun p : Pass => p.shard.currentSz = s.currentSz) _ _ rfl fun p same i _ => ?_
  unfold sweepSlot
  dsimp only
  split
  · split <;> exact same
  · exact same

/-! ### A shard without entries -/

/-- As `setUp` creates it; the flags may differ. -/
structure Blank (T : Layout 2) (s : State) : Prop where
  slots : s.toSlots = Slots.new T
  claims : s.claims = ∅

theorem isFree_new (i : Nat) : isFree (Slots.new T) i = true := rfl

theorem keyAt_new {i : Nat} (inside : i < T.size) : keyAt T (Slots.new T) (i * T.el) = T.free := by
  have room : (i + 1) * T.el ≤ T.size * T.el := Nat.mul_le_mul_right _ inside
  have long := hashLength_le T
  rw [Nat.succ_mul] at room
  unfold keyAt slice Slots.new Layout.free
  rw [List.drop_replicate, List.take_replicate, Nat.min_eq_left (by omega)]

variable {s : State}

theorem Blank.locate (blank : Blank T s) (key : Bytes) : locate T s.toSlots key = none := by
  rw [blank.slots]
  unfold SlotFile.locate index
  rw [if_pos (isFree_new _)]
  rfl

theorem Blank.update (blank : Blank T s) (key : Bytes) (value : Int) :
    LongMapShard.update T s key value = (s, false) := by
  unfold LongMapShard.update
  rw [blank.locate]

theorem Blank.remove (blank : Blank T s) (key : Bytes) (deleteChunk : Bytes → Int → Bool) :
    LongMapShard.remove T s key deleteChunk = (s, false) := by
  unfold LongMapShard.remove
  rw [blank.locate]

theorem Blank.claimRecords (blank : Blank T s) : LongMapShard.claimRecords T s = ⟨s, 0, []⟩ := by
  have cleared : { s with claims := ∅ } = s := by rw [← blank.claims]
  have none_mapped : s.mapped = ∅ := congrArg Slots.mapped blank.slots
  unfold LongMapShard.claimRecords
  rw [cleared]
  refine List.foldl_fixed' (fun i => ?_) _
  unfold claimSlot
  simp [blank.claims, none_mapped, cleared]

theorem Blank.sweepRecords (blank : Blank T s) (mightContain : Bytes → Bool) :
    LongMapShard.sweepRecords T mightContain s = ⟨s, 0, []⟩ := by
  unfold LongMapShard.sweepRecords
  refine List.foldlRecOn (motive := fun p : Pass => p = ⟨s, 0, []⟩) _ _ rfl ?_
  rintro p rfl i member
  have free := keyAt_new (List.mem_range.mp member)
  unfold sweepSlot
  dsimp only
  rw [blank.slots, free, if_neg fun other => other.1 rfl]

theorem Blank.put (blank : Blank T s) (room : refuses T s = false) (key : Bytes) (value cl : Int) :
    ∃ s', LongMapShard.put T s key value cl true = (s', .ok ⟨true, value⟩) ∧ s'.mapped.Nonempty := by
  have home : insertionIndex T s.toSlots key true = .ok (homeOf T key * T.el : Nat) := by
    rw [blank.slots]
    unfold insertionIndex
    exact if_pos (isFree_new _)
  unfold LongMapShard.put
  rw [if_neg (by simp [room]), home]
  dsimp only
  rw [if_neg (by omega)]
  exact ⟨_, rfl, Finset.insert_nonempty _ _⟩

end EncryptedDedup.SDFS.LongMapShard

namespace EncryptedDedup.SDFS.ShardedLongMap
open SlotFile
open LongMapShard (Pass)

/-- The constructor chooses the number of shards by the size that is asked for. -/
def numshards (size : Nat) : Nat :=
  if size < 1000000 then 4
  else if size < 10000000 then 8
  else if size < 40000000 then 16
  else if size < 100000000 then 32
  else 64

def numdiv (size : Nat) : Nat := 256 / numshards size

theorem numshards_mul (size : Nat) : numshards size * numdiv size = 256 := by
  unfold numdiv numshards
  split_ifs <;> rfl

structure State (size : Nat) where
  shards : Fin (numshards size) → LongMapShard.State
  sz : Int
  full : Bool
  active : Bool
  closed : Bool

inductive Failure where
  | mapClosed
  /-- `IOException` of a closed map. -/
  | io
  | table (e : TableError)

/-- The second byte of the hash, with the negative ones turned around. -/
def hashByte (hash : Bytes) : Int :=
  let hashb : Int := ((hash.getD 1 0).toNat : Int).bmod 256
  if hashb < 0 then -hashb + 127 else hashb

theorem hashByte_bounds (hash : Bytes) : 0 ≤ hashByte hash ∧ hashByte hash < 256 := by
  have low := Int.le_bmod (x := ((hash.getD 1 0).toNat : Int)) (m := 256) (by decide)
  have high := Int.bmod_lt (x := ((hash.getD 1 0).toNat : Int)) (m := 256) (by decide)
  unfold hashByte
  dsimp only
  split <;> omega

variable {size : Nat} (T : Layout 2)

def getMap (size : Nat) (hash : Bytes) : Fin (numshards size) :=
  ⟨(hashByte hash).toNat / numdiv size, by
    have bounds := hashByte_bounds hash
    have product := numshards_mul size
    apply Nat.div_lt_of_lt_mul
    rw [Nat.mul_comm, product]
    omega⟩

/-- `(int) (size * loadFactor)`, for the size of all shards together. -/
def maxSz (size : Nat) : Nat := T.size * numshards size * 3 / 4

/-- A shard reads the flags of its map. -/
def State.shard (m : State size) (i : Fin (numshards size)) : LongMapShard.State :=
  { m.shards i with active := m.active, full := m.full }

def State.setShard (m : State size) (i : Fin (numshards size)) (sh : LongMapShard.State) : State size :=
  { m with shards := Function.update m.shards i sh }

/-- `!this.active || this.full || this.sz.get() >= maxSz`. -/
def refuses (m : State size) : Bool := !m.active || m.full || decide ((maxSz T size : Int) ≤ m.sz)

/-- `put(key, value, claims)`; `put(key, value)` has -1 for `claims`. -/
def put (m : State size) (key : Bytes) (value claims : Int) : State size × Except Failure InsertRecord :=
  if refuses T m then ({ m with full := true, active := false }, .error (.table .hashtableFull))
  else
    let i := getMap size key
    let (sh, result) := LongMapShard.put T (m.shard i) key value claims true
    match result with
    | .ok r => ({ m.setShard i sh with sz := if r.inserted then (m.sz + 1).bmod (2 ^ 32) else m.sz }, .ok r)
    | .error .hashtableFull => ({ m with full := true }, .error (.table .hashtableFull))
    | .error e => (m, .error (.table e))

/-- `put(cm)`. -/
def putChunk (m : State size) (hash : Bytes) (cPos references : Int) : State size × Except Failure InsertRecord :=
  if m.closed then (m, .error .mapClosed) else put T m hash cPos references

def update (m : State size) (key : Bytes) (value : Int) : State size × Bool :=
  let i := getMap size key
  let (sh, updated) := LongMapShard.update T (m.shard i) key value
  (m.setShard i sh, updated)

def remove (m : State size) (key : Bytes) (deleteChunk : Bytes → Int → Bool) : State size × Bool :=
  let i := getMap size key
  let (sh, removed) := LongMapShard.remove T (m.shard i) key deleteChunk
  if removed then ({ m.setShard i sh with sz := (m.sz - 1).bmod (2 ^ 32), full := false }, true)
  else (m.setShard i sh, false)

structure Swept (size : Nat) where
  map : State size
  k : Nat
  kept : List Bytes

/-- A turn of the loop over the shards. A shard that frees a record sets `m.full` to `false`. -/
def sweepShard (pass : LongMapShard.State → Pass) (w : Swept size) (i : Fin (numshards size)) : Swept size :=
  let p := pass (w.map.shard i)
  ⟨{ w.map.setShard i p.shard with full := p.shard.full }, w.k + p.freed, w.kept ++ p.kept⟩

def sweepShards (pass : LongMapShard.State → Pass) (m : State size) : Swept size :=
  (List.finRange (numshards size)).foldl (sweepShard pass) ⟨m, 0, []⟩

/-- `claimRecords()`. The size stays as it is. -/
def claimRecords (m : State size) : Except Failure (Swept size) :=
  if m.closed then .error .io else .ok (sweepShards (LongMapShard.claimRecords T) m)

/-- What the forms with a filter do behind the loop. -/
def discount (w : Swept size) : Swept size :=
  if 0 < w.k then { w with map := { w.map with full := false, sz := (w.map.sz - w.k).bmod (2 ^ 32) } } else w

/-- `claimRecords(nbf)`. -/
def claimRecordsInto (m : State size) : Except Failure (Swept size) :=
  if m.closed then .error .io else .ok (discount (sweepShards (LongMapShard.claimRecords T) m))

/-- `claimRecords(nbf, lbf)`, with what `nbf` might contain. -/
def claimRecordsWith (mightContain : Bytes → Bool) (m : State size) : Except Failure (Swept size) :=
  if m.closed then .error .io else .ok (discount (sweepShards (LongMapShard.sweepRecords T mightContain) m))

def State.new (size : Nat) : State size := ⟨fun _ => .new T, 0, false, false, false⟩

/-! ### Runs -/

inductive Op where
  | activate
  | inActive
  | put (key : Bytes) (value claims : Int)
  | putChunk (hash : Bytes) (cPos references : Int)
  | update (key : Bytes) (value : Int)
  | remove (key : Bytes) (deleteChunk : Bytes → Int → Bool)
  | claimRecords
  | claimRecordsInto
  | claimRecordsWith (mightContain : Bytes → Bool)

/-- A call that throws leaves the map alone, apart from what `put` does to the flags. -/
def sweptTo (m : State size) : Except Failure (Swept size) → State size
  | .ok w => w.map
  | .error _ => m

def step (m : State size) : Op → State size
  | .activate => { m with active := true }
  | .inActive => { m with active := false }
  | .put key value claims => (put T m key value claims).1
  | .putChunk hash cPos references => (putChunk T m hash cPos references).1
  | .update key value => (update T m key value).1
  | .remove key deleteChunk => (remove T m key deleteChunk).1
  | .claimRecords => sweptTo m (claimRecords T m)
  | .claimRecordsInto => sweptTo m (claimRecordsInto T m)
  | .claimRecordsWith mightContain => sweptTo m (claimRecordsWith T mightContain m)

def run (size : Nat) (ops : List Op) : State size := ops.foldl (step T) (.new T size)

theorem run_concat (before : List Op) (op : Op) : run T size (before ++ [op]) = step T (run T size before) op :=
  List.foldl_concat (step T) _ _ _

/-- An entry is a mapped slot, as in the count of `setUp`. -/
def entries (s : LongMapShard.State) : Nat := s.mapped.card

structure Accounted (m : State size) : Prop where
  map : m.sz = (∑ i, entries (m.shards i) : Nat)
  shard : ∀ i, (m.shards i).currentSz = entries (m.shards i)

/-- A key is inserted only while its shard is below its capacity. -/
def Fits (m : State size) (key : Bytes) (result : Except Failure InsertRecord) : Prop :=
  ∀ r, result = .ok r → r.inserted = true → entries (m.shards (getMap size key)) < SlotFile.maxSz T

def WithinCapacity (m : State size) : Op → Prop
  | .put key value claims => Fits T m key (put T m key value claims).2
  | .putChunk hash cPos references => Fits T m hash (putChunk T m hash cPos references).2
  | _ => True

/-- The counters are right in every state, and no shard takes a key beyond its capacity. -/
structure Accounts (size : Nat) (ops : List Op) : Prop where
  counters : ∀ before, before <+: ops → Accounted (run T size before)
  capacity : ∀ before op, before ++ [op] <+: ops → WithinCapacity T (run T size before) op

/-- The check of the map turns a put away. -/
def Refused (m : State size) : Op → Prop
  | .put _ _ _ => refuses T m = true
  | .putChunk _ _ _ => m.closed = true ∨ refuses T m = true
  | _ => True

variable {T} {m : State size}

/-! ### The counters of the shards stay where they are -/

def Stalled (m : State size) : Prop := ∀ i, (m.shards i).currentSz = 0

theorem Stalled.setShard (stalled : Stalled m) (i : Fin (numshards size)) {sh : LongMapShard.State}
    (same : sh.currentSz = (m.shard i).currentSz) : Stalled (m.setShard i sh) := by
  intro j
  unfold State.setShard
  by_cases here : j = i
  · subst here
    simpa using same.trans (stalled j)
  · simpa [Function.update_of_ne here] using stalled j

theorem put_stalled (stalled : Stalled m) (key : Bytes) (value claims : Int) :
    Stalled (put T m key value claims).1 := by
  have same := LongMapShard.put_currentSz (T := T) (m.shard (getMap size key)) key value claims true
  unfold put
  split
  · exact stalled
  · dsimp only
    split
    · exact stalled.setShard _ same
    · exact stalled
    · exact stalled

theorem sweepShards_stalled (stalled : Stalled m) {pass : LongMapShard.State → Pass}
    (same : ∀ s, (pass s).shard.currentSz = s.currentSz) : Stalled (sweepShards pass m).map := by
  unfold sweepShards
  exact List.foldlRecOn (motive := fun w : Swept size => Stalled w.map) _ _ stalled fun w stalled i _ => stalled.setShard i (same _)

theorem discount_stalled {w : Swept size} (stalled : Stalled w.map) : Stalled (discount w).map := by
  unfold discount
  split <;> exact stalled

theorem step_stalled (stalled : Stalled m) (op : Op) : Stalled (step T m op) := by
  cases op with
  | activate => exact stalled
  | inActive => exact stalled
  | put key value claims => exact put_stalled stalled key value claims
  | putChunk hash cPos references =>
    simp only [step, putChunk]
    split
    · exact stalled
    · exact put_stalled stalled hash cPos references
  | update key value => exact stalled.setShard _ (LongMapShard.update_currentSz _ key value)
  | remove key deleteChunk =>
    have kept := stalled.setShard _ (LongMapShard.remove_currentSz (T := T) (m.shard (getMap size key)) key deleteChunk)
    simp only [step, remove]
    split <;> exact kept
  | claimRecords =>
    simp only [step, claimRecords]
    split
    · exact stalled
    · exact sweepShards_stalled stalled LongMapShard.claimRecords_currentSz
  | claimRecordsInto =>
    simp only [step, claimRecordsInto]
    split
    · exact stalled
    · exact discount_stalled (sweepShards_stalled stalled LongMapShard.claimRecords_currentSz)
  | claimRecordsWith mightContain =>
    simp only [step, claimRecordsWith]
    split
    · exact stalled
    · exact discount_stalled (sweepShards_stalled stalled (LongMapShard.sweepRecords_currentSz mightContain))

theorem run_stalled (ops : List Op) : Stalled (run T size ops) := by
  induction ops using List.reverseRecOn with
  | nil => exact fun i => rfl
  | append_singleton before op ih =>
    rw [run_concat]
    exact step_stalled ih op

/-- A shard never refuses a key for its capacity. -/
theorem Stalled.refuses (stalled : Stalled m) (i : Fin (numshards size)) :
    LongMapShard.refuses T (m.shard i) = (!m.active || m.full) := by
  have capacity : 0 < SlotFile.maxSz T := by
    unfold SlotFile.maxSz
    have two := size_ge T
    omega
  have below : ¬ (SlotFile.maxSz T : Int) ≤ (m.shards i).currentSz := by
    rw [stalled i]
    omega
  simp [LongMapShard.refuses, below, State.shard]

/-! ### Runs that store nothing -/

structure Empty (T : Layout 2) (m : State size) : Prop where
  shards : ∀ i, LongMapShard.Blank T (m.shards i)
  sz : m.sz = 0

theorem Empty.shard (empty : Empty T m) (i : Fin (numshards size)) : LongMapShard.Blank T (m.shard i) :=
  ⟨(empty.shards i).slots, (empty.shards i).claims⟩

theorem Empty.setShard (empty : Empty T m) (i : Fin (numshards size)) {sh : LongMapShard.State}
    (blank : LongMapShard.Blank T sh) : Empty T (m.setShard i sh) := by
  refine ⟨fun j => ?_, empty.sz⟩
  unfold State.setShard
  by_cases here : j = i
  · subst here
    simpa using blank
  · simpa [Function.update_of_ne here] using empty.shards j

theorem Empty.flags (empty : Empty T m) (full active : Bool) : Empty T { m with full := full, active := active } :=
  ⟨empty.shards, empty.sz⟩

theorem Empty.sweepShards (empty : Empty T m) {pass : LongMapShard.State → Pass}
    (idle : ∀ s, LongMapShard.Blank T s → pass s = ⟨s, 0, []⟩) :
    Empty T (sweepShards pass m).map ∧ (sweepShards pass m).k = 0 := by
  unfold ShardedLongMap.sweepShards
  refine List.foldlRecOn (motive := fun w : Swept size => Empty T w.map ∧ w.k = 0) _ _ ⟨empty, rfl⟩ ?_
  rintro w ⟨empty, none_freed⟩ i -
  unfold sweepShard
  rw [idle _ (empty.shard i)]
  exact ⟨(empty.setShard i (empty.shard i)).flags _ _, none_freed⟩

theorem Empty.discount {w : Swept size} (swept : Empty T w.map ∧ w.k = 0) : Empty T (discount w).map := by
  unfold ShardedLongMap.discount
  rw [if_neg (by omega)]
  exact swept.1

theorem Empty.put (empty : Empty T m) {key : Bytes} {value claims : Int} (refused : refuses T m = true) :
    Empty T (put T m key value claims).1 := by
  unfold ShardedLongMap.put
  rw [if_pos refused]
  exact empty.flags true false

theorem Empty.step (empty : Empty T m) {op : Op} (refused : Refused T m op) : Empty T (step T m op) := by
  cases op with
  | activate => exact empty.flags _ _
  | inActive => exact empty.flags _ _
  | put key value claims => exact empty.put refused
  | putChunk hash cPos references =>
    simp only [ShardedLongMap.step, putChunk]
    split
    · exact empty
    · rename_i unclosed
      exact empty.put (refused.resolve_left unclosed)
  | update key value =>
    simp only [ShardedLongMap.step, update]
    rw [(empty.shard _).update]
    exact empty.setShard _ (empty.shard _)
  | remove key deleteChunk =>
    simp only [ShardedLongMap.step, remove]
    rw [(empty.shard _).remove]
    exact empty.setShard _ (empty.shard _)
  | claimRecords =>
    simp only [ShardedLongMap.step, claimRecords]
    split
    · exact empty
    · exact (empty.sweepShards fun s blank => blank.claimRecords).1
  | claimRecordsInto =>
    simp only [ShardedLongMap.step, claimRecordsInto]
    split
    · exact empty
    · exact Empty.discount (empty.sweepShards fun s blank => blank.claimRecords)
  | claimRecordsWith mightContain =>
    simp only [ShardedLongMap.step, claimRecordsWith]
    split
    · exact empty
    · exact Empty.discount (empty.sweepShards fun s blank => blank.sweepRecords mightContain)

theorem Empty.new : Empty T (State.new T size) := ⟨fun _ => ⟨rfl, rfl⟩, rfl⟩

theorem Empty.accounted (empty : Empty T m) (stalled : Stalled m) : Accounted m := by
  have none_stored : ∀ i, entries (m.shards i) = 0 := fun i =>
    Finset.card_eq_zero.mpr (congrArg Slots.mapped (empty.shards i).slots)
  constructor
  · rw [Finset.sum_eq_zero fun i _ => none_stored i]
    exact empty.sz
  · intro i
    rw [none_stored, stalled]
    rfl

theorem Refused.withinCapacity {op : Op} (refused : Refused T m op) : WithinCapacity T m op := by
  have turned : ∀ key value claims, refuses T m = true → Fits T m key (put T m key value claims).2 := by
    intro key value claims refused r result
    unfold put at result
    rw [if_pos refused] at result
    cases result
  cases op with
  | put key value claims => exact turned _ _ _ refused
  | putChunk hash cPos references =>
    simp only [WithinCapacity, putChunk]
    split
    · intro r result
      cases result
    · rename_i unclosed
      exact turned _ _ _ (refused.resolve_left unclosed)
  | _ => trivial

/-! ### A put that is let in -/

theorem Empty.put_stores (empty : Empty T m) (stalled : Stalled m) {key : Bytes} {value claims : Int}
    (admitted : refuses T m = false) : ∃ i, 0 < entries ((ShardedLongMap.put T m key value claims).1.shards i) := by
  simp only [refuses, Bool.or_eq_false_iff, decide_eq_false_iff_not] at admitted
  have room : LongMapShard.refuses T (m.shard (getMap size key)) = false := by
    simp [stalled.refuses, admitted.1]
  obtain ⟨sh, stored, nonempty⟩ := (empty.shard (getMap size key)).put room key value claims
  refine ⟨getMap size key, ?_⟩
  unfold ShardedLongMap.put
  rw [if_neg (by simp [refuses, admitted])]
  simpa [stored, State.setShard, entries] using nonempty

theorem Empty.step_stores (empty : Empty T m) (stalled : Stalled m) {op : Op} (admitted : ¬ Refused T m op) :
    ∃ i, 0 < entries ((ShardedLongMap.step T m op).shards i) := by
  cases op with
  | put key value claims => exact empty.put_stores stalled (Bool.eq_false_iff.mpr admitted)
  | putChunk hash cPos references =>
    obtain ⟨unclosed, admitted⟩ := not_or.mp admitted
    simp only [ShardedLongMap.step, putChunk]
    rw [if_neg unclosed]
    exact empty.put_stores stalled (Bool.eq_false_iff.mpr admitted)
  | _ => exact absurd trivial admitted

theorem Accounted.none_stored (accounted : Accounted m) (stalled : Stalled m) (i : Fin (numshards size)) :
    entries (m.shards i) = 0 := by
  have counted := accounted.shard i
  rw [stalled i] at counted
  omega

theorem run_empty {ops : List Op}
    (still : ∀ before op, before ++ [op] <+: ops → Empty T (run T size before) → Refused T (run T size before) op) :
    ∀ before, before <+: ops → Empty T (run T size before) := by
  intro before
  induction before using List.reverseRecOn with
  | nil => exact fun _ => Empty.new
  | append_singleton before op ih =>
    intro inside
    have empty := ih ((List.prefix_append before [op]).trans inside)
    rw [run_concat]
    exact empty.step (still before op inside empty)

/-- The counters of a run are right if and only if the map turns every put away. -/
theorem accounts_iff (ops : List Op) :
    Accounts T size ops ↔ ∀ before op, before ++ [op] <+: ops → Refused T (run T size before) op := by
  constructor
  · intro accounts
    have still : ∀ before op, before ++ [op] <+: ops → Empty T (run T size before) →
        Refused T (run T size before) op := by
      intro before op inside empty
      by_contra admitted
      obtain ⟨i, stored⟩ := empty.step_stores (run_stalled before) admitted
      have none_stored := (accounts.counters _ inside).none_stored (run_stalled _) i
      rw [run_concat] at none_stored
      omega
    intro before op inside
    exact still before op inside (run_empty still before ((List.prefix_append before [op]).trans inside))
  · intro refused
    have empty : ∀ before, before <+: ops → Empty T (run T size before) :=
      run_empty fun before op inside _ => refused before op inside
    exact ⟨fun before inside => (empty before inside).accounted (run_stalled before),
      fun before op inside => (refused before op inside).withinCapacity⟩

theorem prime_partSize : Nat.Prime 10007 := by norm_num

theorem long_hash : 12 ≤ 16 := by decide

theorem mappable_partSize : 10007 * (16 + 8 * 2) < 2 ^ 31 := by decide

def partOfMap : Layout 2 where
  hashLength := 16
  size := 10007
  prime := prime_partSize
  long := long_hash
  mappable := mappable_partSize

/-- One chunk is put into a new map. -/
theorem oneChunk_not_accounted :
    ¬ Accounts partOfMap 40000 [.activate, .putChunk (List.replicate 16 7) 64 1] := by
  intro accounts
  have none_stored := (accounts.counters _ (List.prefix_refl _)).none_stored (run_stalled _)
  have admitted : ¬ Refused partOfMap (run partOfMap 40000 [.activate]) (.putChunk (List.replicate 16 7) 64 1) := by
    rintro (shut | refused)
    · cases shut
    · exact absurd refused (by decide)
  have empty : Empty partOfMap (run partOfMap 40000 [.activate]) := 
    Empty.new.step (show Refused partOfMap (.new partOfMap 40000) .activate from trivial)
  obtain ⟨i, stored⟩ := empty.step_stores (run_stalled _) admitted
  exact absurd (none_stored i) (Nat.ne_of_gt stored)

end EncryptedDedup.SDFS.ShardedLongMap
