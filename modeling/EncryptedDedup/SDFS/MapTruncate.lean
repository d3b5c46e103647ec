import EncryptedDedup.SDFS.ChunkArray
import EncryptedDedup.SDFS.MapIteration
import EncryptedDedup.SDFS.MapTrim

/-!
# Truncated files

`truncateFile` cuts the map at the slot of the chunk that the length is in. The references that are removed are those of
the records whose positions in the file are less than the position of the cut in the file of the map.
-/

namespace EncryptedDedup.SDFS

namespace LongByteArrayMap

/-- `truncate`, with the references that it removes. -/
def truncate (K : Config) (m : LongByteArrayMap) (refCount : Bool) (length : Nat) :
    Outcome (Except Thrown LongByteArrayMap × List HashLocPair) :=
  let fpos := getMapFilePosition K m length
  let cut := { m with db := m.db.take fpos }
  if refCount then
    (takeNext (nextKeyValue K m) (fun kv => decide (kv.1 < fpos)) (m.db.length + 1) 0).map fun r =>
      (match r.2 with
        | .ok () => .ok cut
        | .error _ => .error .ioException, r.1.flatMap fun kv => kv.2.ar.values)
  else .finished (.ok cut, [])

end LongByteArrayMap

/-- A file with its map, and the records that the flush of its buffers puts. -/
structure MappedFile where
  map : LongByteArrayMap
  unflushed : List (Nat × SparseDataChunk)
  closed : Bool
  canWrite : Bool
  length : Nat

inductive TruncateThrown where
  | readOnly
  | ioException

namespace MappedFile

variable (K : Config) (file : MappedFile)

/-- A record that cannot be put is lost. -/
def writeCache : MappedFile :=
  { file with
    map := file.unflushed.foldl (fun m r => LongByteArrayMap.step K m (.put r.1 r.2)) file.map, unflushed := [] }

/-- `SparseDedupFile.truncate`. -/
def truncate (refCount : Bool) (size : Nat) : Outcome (Except TruncateThrown MappedFile × List HashLocPair) :=
  if file.closed then .finished (.error .ioException, [])
  else
    let file := file.writeCache K
    (file.map.truncate K refCount size).map fun r =>
      (match r.1 with
        | .ok map => .ok { file with map }
        | .error _ => .error .ioException, r.2)

/-- `DedupFileChannel.truncateFile`. -/
def truncateFile (refCount : Bool) (siz : Nat) : Outcome (Except TruncateThrown MappedFile × List HashLocPair) :=
  if !file.canWrite then .finished (.error .readOnly, [])
  else if siz < file.length then
    (file.truncate K refCount siz).map fun r => (r.1.map fun file => { file with length := siz }, r.2)
  else .finished (.ok { file with length := siz }, [])

end MappedFile

namespace LongByteArrayMap
open WritableCacheBuffer

variable {σ : Type} (V : Services σ) (store : σ) (direct : Bool) (K : Config) (m : LongByteArrayMap)

/-- `SparseDedupFile.marshalWriteBuffer`. -/
def marshalWriteBuffer : Option SparseDataChunk → WritableCacheBuffer σ
  | none => ofFile V store Fingers.empty false direct
  | some ck => ofDedupChunk V store ck.ar false ck.doop (decide (ck.flags ≠ 0)) direct

def recordBytes (r : Option SparseDataChunk) : Option Bytes :=
  match initBuffer V (marshalWriteBuffer V store direct r).open_ with
  | .finished (w, .ok ()) => w.array
  | _ => none

def fileByte (p : Nat) : Option UInt8 := do
  let r ← (get V.config m (p / V.config.chunkLength.toNat * V.config.chunkLength.toNat)).toOption
  let b ← recordBytes V store direct r
  b[p % V.config.chunkLength.toNat]?

def extents (is : List Nat) : List HashLocPair :=
  is.flatMap fun i =>
    match get K m (i * K.chunkLength.toNat) with
    | .ok (some ck) => ck.ar.values
    | _ => []

/-- What truncating makes of the map `m`: nothing changes below the length, no record is left behind it, and every extent
of a record that is gone loses one reference. -/
structure Truncated (refCount : Bool) (length : Nat) (m' : LongByteArrayMap) (refs : List HashLocPair) : Prop where
  keeps : ∀ p < length, fileByte V store direct m' p = fileByte V store direct m p
  ends : ∀ i, length ≤ i * V.config.chunkLength.toNat → get V.config m' (i * V.config.chunkLength.toNat) = .ok none
  once : refCount = true → ∃ is : List Nat, is.Nodup ∧
    (∀ i, i ∈ is ↔ (∃ ck, get V.config m (i * V.config.chunkLength.toNat) = .ok (some ck)) ∧
      get V.config m' (i * V.config.chunkLength.toNat) = .ok none) ∧
    ∀ h, V.counts h = true → references h.chunk refs = references h.chunk (extents V.config m is)

/-- The chunks before that of the length with positions below that of the cut in the file of the map. -/
def passedBefore (length : Nat) : List Nat :=
  (List.range (slotCount K m)).filter fun i =>
    i < length / K.chunkLength.toNat ∧ i * K.chunkLength.toNat < getMapFilePosition K m length

/-- The chunks from that of the length on with other positions. -/
def leftBehind (length : Nat) : List Nat :=
  (List.range (slotCount K m)).filter fun i =>
    length / K.chunkLength.toNat ≤ i ∧ getMapFilePosition K m length ≤ i * K.chunkLength.toNat

/-- Where the length is inside a chunk there are zeros before it, and the records before the cut that lose their references
have as many to every chunk as those behind it that do not. -/
structure Truncatable (refCount : Bool) (length : Nat) : Prop where
  zeros : ∀ p < length, length / V.config.chunkLength.toNat * V.config.chunkLength.toNat ≤ p →
    fileByte V store direct m p = some 0
  balanced : refCount = true → ∀ h, V.counts h = true →
    references h.chunk (extents V.config m (passedBefore V.config m length)) =
      references h.chunk (extents V.config m (leftBehind V.config m length))

/-- The maps that calls reach, those of `truncate` among them. -/
inductive Made (version : UInt8) : LongByteArrayMap → Prop where
  | create : version ≤ 3 → Made version (create version)
  | step {m : LongByteArrayMap} {op : Op} : Made version m → op.Plain K version → Made version (step K m op)
  | truncate {m m' : LongByteArrayMap} {refCount : Bool} {length : Nat} {refs : List HashLocPair} : Made version m →
    truncate K m refCount length = .finished (.ok m', refs) → Made version m'

/-- `truncateFile` returns, and has truncated the file that the flush of its buffers left. -/
def Truncates (file : MappedFile) (refCount : Bool) (siz : Nat) : Prop :=
  ∃ file' refs, file.truncateFile V.config refCount siz = .finished (.ok file', refs) ∧
    Truncated V store direct (file.writeCache V.config).map refCount siz file'.map refs

/-! ### The cut -/

variable {V store direct K m} {slots : Nat → Option SparseDataChunk}

theorem Holds.take (holds : Holds K m slots) (usable : K.Usable) (k : Nat) :
    Holds K { m with db := m.db.take (slotPosition K m k) } fun i => if i < k then slots i else none := by
  have positive := arrayLength_pos usable m.version
  have same (i : Nat) : slotPosition K { m with db := m.db.take (slotPosition K m k) } i = slotPosition K m i := rfl
  constructor
  · intro i inside
    rw [same] at inside ⊢
    dsimp only at inside ⊢
    rw [List.length_take] at inside
    have before : i < k := by
      by_contra behind
      have apart := Nat.mul_le_mul_right (arrayLength K m.version) (Nat.not_lt.mp behind)
      unfold slotPosition at inside
      omega
    rw [if_pos before, slice_take (slotPosition_add_le before)]
    exact holds.inside i (by omega)
  · intro i behind
    rw [same] at behind
    dsimp only at behind ⊢
    rw [List.length_take] at behind
    split
    · rename_i before
      have apart := slotPosition_add_le (K := K) (m := m) before
      exact holds.outside i (by omega)
    · rfl

theorem extents_eq (holds : Holds K m slots) (usable : K.Usable) (is : List Nat) : extents K m is = refsOf slots is := by
  unfold extents refsOf
  refine List.flatMap_congr fun i _ => ?_
  rw [get_slot holds usable]
  cases slots i <;> rfl

theorem taken_refs (fpos : Nat) {is : List Nat} (ascending : is.Pairwise (· < ·)) :
    (((positions K slots is).zip (is.filterMap slots)).takeWhile fun kv => decide (kv.1 < fpos)).flatMap
        (fun kv => kv.2.ar.values) =
      refsOf slots (is.filter fun i => i * K.chunkLength.toNat < fpos) := by
  unfold positions held
  induction is with
  | nil => rfl
  | cons i is ih =>
    obtain ⟨later, rest⟩ := List.pairwise_cons.mp ascending
    cases there : slots i with
    | none =>
      rw [List.filterMap_cons_none there, List.filter_cons_of_neg (by simp [there]), ih rest, List.filter_cons]
      split
      · rw [refsOf, refsOf, List.flatMap_cons, there]
        rfl
      · rfl
    | some ck =>
      rw [List.filterMap_cons_some there, List.filter_cons_of_pos (by simp [there]), List.map_cons, List.zip_cons_cons,
        List.takeWhile_cons, List.filter_cons]
      by_cases low : i * K.chunkLength.toNat < fpos
      · rw [if_pos (decide_eq_true low), if_pos (decide_eq_true low), List.flatMap_cons, ih rest, refsOf, refsOf,
          List.flatMap_cons, there]
        rfl
      · have none_low : (is.filter fun i => decide (i * K.chunkLength.toNat < fpos)) = [] := by
          rw [List.filter_eq_nil_iff]
          intro j member below
          have further := Nat.mul_le_mul_right K.chunkLength.toNat (Nat.le_of_lt (later j member))
          have below := of_decide_eq_true below
          omega
        rw [if_neg (by simpa using low), if_neg (by simpa using low), none_low]
        rfl

def removedRefs (K : Config) (m : LongByteArrayMap) (slots : Nat → Option SparseDataChunk) (length : Nat) : List HashLocPair :=
  refsOf slots ((List.range (slotCount K m)).filter fun i => i * K.chunkLength.toNat < getMapFilePosition K m length)

theorem truncate_spec (holds : Holds K m slots) (usable : K.Usable) (refCount : Bool) (length : Nat) :
    truncate K m refCount length =
      .finished (.ok { m with db := m.db.take (getMapFilePosition K m length) },
        if refCount then removedRefs K m slots length else []) := by
  cases refCount with
  | false => rfl
  | true =>
    have passes := nextKeyValue_passes holds usable
    have few : ((positions K slots (List.range' 0 (slotCount K m))).zip
        ((List.range' 0 (slotCount K m)).filterMap slots)).length < m.db.length + 1 := by
      have count := slotCount_le (m := m) usable
      have records := List.length_filterMap_le slots (List.range' 0 (slotCount K m))
      rw [List.length_range'] at records
      rw [List.length_zip]
      omega
    unfold truncate removedRefs
    dsimp only
    rw [if_pos rfl, if_pos rfl, takeNext_passes passes _ few, List.range_eq_range',
      ← taken_refs _ List.pairwise_lt_range']
    rfl

/-! ### The content -/

theorem recordBytes_none : recordBytes V store direct none = some (zeros V.config.chunkLength.toNat) := by
  have idle : (initBuffer V).Gives (ofFile V store Fingers.empty false direct).open_ ()
      (ofFile V store Fingers.empty false direct).open_ := initBuffer_idle rfl rfl
  unfold recordBytes marshalWriteBuffer
  rw [idle]
  rfl

theorem fileByte_eq (holds : Holds V.config m slots) (usable : V.config.Usable) (p : Nat) :
    fileByte V store direct m p =
      (recordBytes V store direct (slots (p / V.config.chunkLength.toNat))).bind (·[p % V.config.chunkLength.toNat]?) := by
  unfold fileByte
  rw [get_slot holds usable]
  rfl

theorem keeps_iff (holds : Holds V.config m slots) (usable : V.config.Usable) (length : Nat) :
    (∀ p < length, fileByte V store direct { m with db := m.db.take (getMapFilePosition V.config m length) } p =
        fileByte V store direct m p) ↔
      ∀ p < length, length / V.config.chunkLength.toNat * V.config.chunkLength.toNat ≤ p →
        fileByte V store direct m p = some 0 := by
  have positive := chunk_pos usable
  have cut := holds.take usable (length / V.config.chunkLength.toNat)
  refine forall₂_congr fun p less => ?_
  rw [← Nat.le_div_iff_mul_le positive]
  by_cases behind : length / V.config.chunkLength.toNat ≤ p / V.config.chunkLength.toNat
  · have zero : fileByte V store direct { m with db := m.db.take (getMapFilePosition V.config m length) } p = some 0 := by
      rw [getMapFilePosition, fileByte_eq cut usable, if_neg (Nat.not_lt.mpr behind), recordBytes_none, Option.bind_some,
        zeros, List.getElem?_replicate, if_pos (Nat.mod_lt p positive)]
    rw [zero]
    constructor
    · exact fun same _ => same.symm
    · exact fun blank => (blank behind).symm
  · have same : fileByte V store direct { m with db := m.db.take (getMapFilePosition V.config m length) } p =
        fileByte V store direct m p := by
      rw [getMapFilePosition, fileByte_eq cut usable, if_pos (Nat.not_le.mp behind), fileByte_eq holds usable]
    exact ⟨fun _ there => absurd there behind, fun _ => same⟩

/-! ### The references -/

theorem refsOf_held (is : List Nat) : refsOf slots (held slots is) = refsOf slots is := by
  unfold held
  induction is with
  | nil => rfl
  | cons i is ih =>
    rw [List.filter_cons]
    split
    · rw [refsOf, List.flatMap_cons, refsOf, List.flatMap_cons]
      exact congrArg _ ih
    · rename_i blank
      have none_there : slots i = none := by simpa using blank
      rw [ih, refsOf, refsOf, List.flatMap_cons, none_there]
      rfl

theorem references_perm (slots : Nat → Option SparseDataChunk) (k : Bytes × Bytes) {is js : List Nat} (perm : is.Perm js) :
    references k (refsOf slots is) = references k (refsOf slots js) :=
  (perm.flatMap_right _).countP_eq _

theorem references_split (slots : Nat → Option SparseDataChunk) (k : Bytes × Bytes) (p q : Nat → Bool) (is : List Nat) :
    references k (refsOf slots (is.filter p)) =
      references k (refsOf slots (is.filter fun i => q i && p i)) +
        references k (refsOf slots (is.filter fun i => !q i && p i)) := by
  have parts := references_perm slots k (List.filter_append_perm q (is.filter p))
  rw [← parts, refsOf, List.flatMap_append, references, List.countP_append, List.filter_filter, List.filter_filter]
  rfl

def cutOff (K : Config) (m : LongByteArrayMap) (length : Nat) : List Nat :=
  (List.range (slotCount K m)).filter fun i => length / K.chunkLength.toNat ≤ i

theorem balanced_iff (holds : Holds K m slots) (usable : K.Usable) (length : Nat) (k : Bytes × Bytes) :
    references k (removedRefs K m slots length) = references k (refsOf slots (cutOff K m length)) ↔
      references k (extents K m (passedBefore K m length)) = references k (extents K m (leftBehind K m length)) := by
  have removed := references_split slots k (fun i => i * K.chunkLength.toNat < getMapFilePosition K m length)
    (fun i => i < length / K.chunkLength.toNat) (List.range (slotCount K m))
  have gone := references_split slots k (fun i => length / K.chunkLength.toNat ≤ i)
    (fun i => getMapFilePosition K m length ≤ i * K.chunkLength.toNat) (List.range (slotCount K m))
  have both : ((List.range (slotCount K m)).filter fun i => !decide (i < length / K.chunkLength.toNat) &&
        decide (i * K.chunkLength.toNat < getMapFilePosition K m length)) =
      (List.range (slotCount K m)).filter fun i =>
        !decide (getMapFilePosition K m length ≤ i * K.chunkLength.toNat) &&
          decide (length / K.chunkLength.toNat ≤ i) := by
    refine List.filter_congr fun i _ => ?_
    rw [← decide_not, ← decide_not, ← Bool.decide_and, ← Bool.decide_and, decide_eq_decide]
    omega
  have passed : ((List.range (slotCount K m)).filter fun i => decide (i < length / K.chunkLength.toNat) &&
        decide (i * K.chunkLength.toNat < getMapFilePosition K m length)) = passedBefore K m length := by
    refine List.filter_congr fun i _ => ?_
    rw [Bool.decide_and]
  have left_ : ((List.range (slotCount K m)).filter fun i =>
        decide (getMapFilePosition K m length ≤ i * K.chunkLength.toNat) &&
          decide (length / K.chunkLength.toNat ≤ i)) = leftBehind K m length := by
    refine List.filter_congr fun i _ => ?_
    rw [Bool.decide_and, Bool.and_comm]
  rw [both, passed] at removed
  rw [left_] at gone
  rw [extents_eq holds usable, extents_eq holds usable, removedRefs, cutOff, removed, gone]
  omega

theorem truncated_iff (holds : Holds V.config m slots) (usable : V.config.Usable) (refCount : Bool) (length : Nat) :
    Truncated V store direct m refCount length
        { m with db := m.db.take (getMapFilePosition V.config m length) }
        (if refCount then removedRefs V.config m slots length else []) ↔
      Truncatable V store direct m refCount length := by
  have positive := chunk_pos usable
  have cut := holds.take usable (length / V.config.chunkLength.toNat)
  have gone (i : Nat) : (∃ ck, get V.config m (i * V.config.chunkLength.toNat) = .ok (some ck)) ∧
      get V.config { m with db := m.db.take (getMapFilePosition V.config m length) } (i * V.config.chunkLength.toNat) =
        .ok none ↔ i ∈ held slots (cutOff V.config m length) := by
    rw [getMapFilePosition, get_slot cut usable, get_slot holds usable, held, cutOff, List.mem_filter, List.mem_filter,
      List.mem_range, decide_eq_true_iff]
    constructor
    · rintro ⟨⟨ck, stored⟩, none_left⟩
      have there := Except.ok.inj stored
      refine ⟨⟨slots_inside holds usable there, ?_⟩, by rw [there]; rfl⟩
      by_contra before
      rw [if_pos (Nat.not_le.mp before), there] at none_left
      cases none_left
    · rintro ⟨⟨-, behind⟩, there⟩
      obtain ⟨ck, stored⟩ := Option.isSome_iff_exists.mp there
      exact ⟨⟨ck, by rw [stored]⟩, by rw [if_neg (Nat.not_lt.mpr behind)]⟩
  have distinct : (held slots (cutOff V.config m length)).Nodup := (List.nodup_range.filter _).filter _
  constructor
  · rintro ⟨keeps, -, once⟩
    refine ⟨(keeps_iff holds usable length).mp keeps, fun counting h counted => ?_⟩
    obtain ⟨is, nodup, members, removed⟩ := once counting
    have perm : is.Perm (held slots (cutOff V.config m length)) :=
      (List.perm_ext_iff_of_nodup nodup distinct).mpr fun i => (members i).trans (gone i)
    rw [← balanced_iff holds usable, ← refsOf_held (cutOff _ _ _), ← references_perm slots _ perm, ← extents_eq holds usable,
      ← removed h counted, counting]
    rfl
  · rintro ⟨zeros, balanced⟩
    refine ⟨(keeps_iff holds usable length).mpr zeros, fun i behind => ?_, fun counting =>
      ⟨_, distinct, fun i => (gone i).symm, fun h counted => ?_⟩⟩
    · have after : length / V.config.chunkLength.toNat ≤ i := by
        rw [← Nat.mul_div_cancel i positive]
        exact Nat.div_le_div_right behind
      rw [getMapFilePosition, get_slot cut usable, if_neg (Nat.not_lt.mpr after)]
    · rw [extents_eq holds usable, refsOf_held, counting]
      exact (balanced_iff holds usable length h.chunk).mpr (balanced counting h counted)

/-! ### Files -/

theorem made_holds (usable : K.Usable) {version : UInt8} (made : Made K version m) :
    m.version = version ∧ ∃ slots, Holds K m slots := by
  induction made with
  | create _ => exact ⟨rfl, _, holds_create version⟩
  | step _ plain ih =>
    obtain ⟨same, slots, holds⟩ := ih
    obtain ⟨kept, holds'⟩ := step_holds holds usable (same ▸ plain)
    exact ⟨kept.trans same, holds'⟩
  | truncate _ returned ih =>
    obtain ⟨same, slots, holds⟩ := ih
    rw [truncate_spec holds usable] at returned
    obtain ⟨cut, -⟩ := Prod.mk.inj (Outcome.finished.inj returned)
    rw [← Except.ok.inj cut]
    exact ⟨same, _, holds.take usable _⟩

theorem made_writeCache {version : UInt8} {file : MappedFile} (made : Made K version file.map)
    (plain : ∀ r ∈ file.unflushed, (Op.put r.1 r.2).Plain K version) : Made K version (file.writeCache K).map := by
  have flushed : ∀ (rs : List (Nat × SparseDataChunk)) (m : LongByteArrayMap), Made K version m →
      (∀ r ∈ rs, (Op.put r.1 r.2).Plain K version) →
      Made K version (rs.foldl (fun m r => step K m (.put r.1 r.2)) m) := by
    intro rs
    induction rs with
    | nil => exact fun _ made _ => made
    | cons r rs ih =>
      intro m made plain
      obtain ⟨first, rest⟩ := List.forall_mem_cons.mp plain
      exact ih _ (.step made first) rest
  exact flushed file.unflushed file.map made plain

theorem truncates_iff_truncatable {file : MappedFile} (holds : Holds V.config (file.writeCache V.config).map slots)
    (usable : V.config.Usable) (open_ : file.closed = false) (writable : file.canWrite = true) (refCount : Bool) {siz : Nat}
    (shorter : siz < file.length) :
    Truncates V store direct file refCount siz ↔
      Truncatable V store direct (file.writeCache V.config).map refCount siz := by
  have returns : file.truncateFile V.config refCount siz =
      .finished (.ok { file.writeCache V.config with
        map := { (file.writeCache V.config).map with
          db := (file.writeCache V.config).map.db.take (getMapFilePosition V.config (file.writeCache V.config).map siz) },
        length := siz },
        if refCount then removedRefs V.config (file.writeCache V.config).map slots siz else []) := by
    unfold MappedFile.truncateFile MappedFile.truncate
    rw [writable, open_, if_neg (by decide), if_pos shorter, if_neg (by decide)]
    dsimp only
    rw [truncate_spec holds usable]
    rfl
  rw [← truncated_iff holds usable]
  constructor
  · rintro ⟨file', refs, returned, truncated⟩
    rw [returns] at returned
    obtain ⟨same, rfl⟩ := Prod.mk.inj (Outcome.finished.inj returned)
    obtain rfl := Except.ok.inj same
    exact truncated
  · exact fun truncated => ⟨_, _, returns, truncated⟩

theorem truncates_iff {version : UInt8} {file : MappedFile} (usable : V.config.Usable)
    (made : Made V.config version file.map)
    (plain : ∀ r ∈ file.unflushed, (Op.put r.1 r.2).Plain V.config version) (open_ : file.closed = false)
    (writable : file.canWrite = true) (refCount : Bool) {siz : Nat} (shorter : siz < file.length) :
    Truncates V store direct file refCount siz ↔
      Truncatable V store direct (file.writeCache V.config).map refCount siz := by
  obtain ⟨-, slots, holds⟩ := made_holds usable (made_writeCache made plain)
  exact truncates_iff_truncatable holds usable open_ writable refCount shorter

def oneChunkFile : MappedFile := ⟨oneChunk, [], false, true, 20000⟩

theorem oneChunk_made : Made hashing.config 2 oneChunk :=
  .step (.create (by decide)) ⟨rfl, SparseDataChunk.oneEntry_typed false⟩

theorem truncates_iff_oneChunk :
    Truncates hashing () false oneChunkFile true 16384 ↔
      Truncatable hashing () false (oneChunkFile.writeCache hashing.config).map true 16384 :=
  truncates_iff usable_small oneChunk_made (fun _ member => absurd member List.not_mem_nil) rfl rfl true (by decide)

/-- The chunk stays and loses its reference. -/
theorem oneChunk_not_truncated :
    Made hashing.config 2 oneChunkFile.map ∧ ¬ Truncates hashing () false oneChunkFile true 16384 := by
  refine ⟨oneChunk_made, fun truncates => ?_⟩
  obtain ⟨-, slots, holds⟩ := made_holds usable_small oneChunk_made
  have truncatable := (truncates_iff_truncatable holds usable_small rfl rfl true (by decide)).mp truncates
  have same := truncatable.balanced rfl ((SparseDataChunk.oneEntry false).ar.objects 0) (by decide)
  exact absurd same (by decide +kernel)

end LongByteArrayMap

end EncryptedDedup.SDFS
