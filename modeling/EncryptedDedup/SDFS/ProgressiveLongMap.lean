import EncryptedDedup.SDFS.SlotFile

/-!
# `ProgressiveFileByteArrayLongMap`

A table of chunk locations. Claims keep keys from being removed.
-/

namespace EncryptedDedup.SDFS.ProgressiveLongMap
open SlotFile

/-- `FileBasedBloomFilter`: it might contain what was put. -/
structure BloomFilter where
  Filter : Type
  empty : Filter
  put : Filter → Bytes → Filter
  mightContain : Filter → Bytes → Bool
  mightContain_put (f : Filter) (k : Bytes) : mightContain (put f k) k = true
  mightContain_kept (f : Filter) (k k' : Bytes) : mightContain f k = true → mightContain (put f k') k = true
  put_contained (f : Filter) (k : Bytes) : mightContain f k = true → put f k = f

structure State (B : BloomFilter) extends Slots where
  claims : Finset Nat
  sz : Int
  bf : B.Filter
  bgst : Int
  full : Bool
  active : Bool
  runningGC : Bool

/-- What `writeChunk` of the chunk store does. -/
inductive WriteChunk where
  | written (pos : Int)
  /-- `HashExistsException`, with the position of the chunk. -/
  | hashExists (pos : Int)
  /-- Another `IOException`. -/
  | failed

structure ChunkData where
  hash : Bytes
  cPos : Int
  /-- `chunk != null`. -/
  chunk : Bool
  recoverd : Bool

/-- `persistData`: a chunk that was written before stays where it is. -/
def ChunkData.persistData (cm : ChunkData) (answer : WriteChunk) : WriteChunk :=
  if cm.chunk then answer else .written cm.cPos

variable {B : BloomFilter} (T : Layout 1)

def locate (s : State B) (key : Bytes) : Option Nat :=
  if s.runningGC = false ∧ B.mightContain s.bf key = false then none else SlotFile.locate T s.toSlots key

def valueAt (f : Slots) (pos : Nat) : Int := longAt f (pos + T.hashLength)

def get (s : State B) (key : Bytes) (claim : Bool) : Int × State B :=
  match locate T s key with
  | none => (-1, s)
  | some pos =>
    let val := valueAt T s.toSlots pos
    let s := if claim then { s with claims := insert (pos / T.el) s.claims } else s
    (val, if s.runningGC then { s with bf := B.put s.bf key } else s)

/-- `!this.active || this.full || this.sz.get() >= maxSz`. -/
def refuses (s : State B) : Bool := !s.active || s.full || decide ((maxSz T : Int) ≤ s.sz)

/-- The insertion index, with `full` set if it finds no slot. -/
def insertionPoint (s : State B) (key : Bytes) : State B × Except TableError Int :=
  let mightExist := s.runningGC || B.mightContain s.bf key
  match insertionIndex T s.toSlots key mightExist with
  | .error .hashtableFull => ({ s with full := true }, .error .hashtableFull)
  | result => (s, result)

/-- The key at the offset `pos` and its location behind it. -/
def insertAt (s : State B) (pos : Nat) (key : Bytes) (value : Int) : State B × Except TableError InsertRecord :=
  ({ s with
      kFC := overwrite s.kFC pos (key ++ toBE64 value)
      mapped := insert (pos / T.el) s.mapped
      removed := s.removed.erase (pos / T.el)
      claims := insert (pos / T.el) s.claims
      sz := s.sz + 1
      bf := B.put s.bf key
      bgst := max s.bgst value }, .ok ⟨true, value⟩)

/-- The key is stored in the slot whose number is `npos`; `claims.set` throws if it is negative. -/
def claimStored (s : State B) (npos : Int) (key : Bytes) : State B × Except TableError InsertRecord :=
  if npos < 0 then (s, .error .indexOutOfBounds)
  else
    let s := { s with claims := insert npos.toNat s.claims, bf := B.put s.bf key }
    let (val, s) := get T s key true
    (s, .ok ⟨false, val⟩)

/-- `put(ChunkData)`; `answer` is what the chunk store does with the chunk. -/
def putChunk (s : State B) (cm : ChunkData) (answer : WriteChunk) : State B × Except TableError InsertRecord :=
  let key := cm.hash
  if refuses T s then ({ s with full := true, active := false }, .error .hashtableFull)
  else
    match insertionPoint T s key with
    | (s, .error e) => (s, .error e)
    | (s, .ok pos) =>
      if pos < 0 then claimStored T s (((-pos - 1) * -1).tdiv T.el) key
      else
        match if cm.recoverd then .written cm.cPos else cm.persistData answer with
        | .hashExists pos => (s, .ok ⟨false, pos⟩)
        | .failed => (s, .error .io)
        | .written cPos => insertAt T s pos.toNat key cPos

/-- `put(key, value)`. -/
def put (s : State B) (key : Bytes) (value : Int) : State B × Except TableError InsertRecord :=
  if refuses T s then ({ s with full := true, active := false }, .error .hashtableFull)
  else
    match insertionPoint T s key with
    | (s, .error e) => (s, .error e)
    | (s, .ok pos) =>
      if pos < 0 then claimStored T s ((-pos - 1).tdiv T.el) key
      else insertAt T s pos.toNat key value

/-- `remove`; `deleteChunk` is what `setmDelete` returns for the key and its location. -/
def remove (s : State B) (key : Bytes) (deleteChunk : Bytes → Int → Bool) : State B × Bool :=
  match locate T s key with
  | none => (s, false)
  | some pos =>
    -- The claims are asked for the offset, not for the number of the slot.
    if pos ∈ s.claims then (if s.runningGC then { s with bf := B.put s.bf key } else s, false)
    else
      let kFC := overwrite s.kFC pos T.removed
      let fp := ofBE64 (slice kFC (pos + T.hashLength) 8)
      let s := { s with kFC := overwrite kFC (pos + T.hashLength) (toBE64 0) }
      if deleteChunk key fp then
        ({ s with
            claims := s.claims.erase (pos / T.el)
            mapped := s.mapped.erase (pos / T.el)
            removed := insert (pos / T.el) s.removed
            sz := s.sz - 1
            full := false }, true)
      else (s, false)

/-- `claim`, which does nothing here. -/
def claimKey (s : State B) (_key : Bytes) (_val _ct : Int) : State B × Bool := (s, false)

def State.new : State B := ⟨.new T, ∅, 0, B.empty, 0, false, false, false⟩

/-- `close`, and `setUp` on the files that it has left. -/
def reopen (s : State B) : State B := { s with claims := ∅, sz := s.mapped.card, active := false, runningGC := false }

/-! ### Runs -/

inductive Op where
  | putChunk (cm : ChunkData) (answer : WriteChunk)
  | put (key : Bytes) (value : Int)
  | get (key : Bytes) (claim : Bool)
  | claimKey (key : Bytes) (val ct : Int)
  | remove (key : Bytes) (deleteChunk : Bytes → Int → Bool)
  | activate
  | inActive
  | reopen

def step (s : State B) : Op → State B
  | .putChunk cm answer => (putChunk T s cm answer).1
  | .put key value => (put T s key value).1
  | .get key claim => (get T s key claim).2
  | .claimKey key val ct => (claimKey s key val ct).1
  | .remove key deleteChunk => (remove T s key deleteChunk).1
  | .activate => { s with active := true }
  | .inActive => { s with active := false }
  | .reopen => reopen s

def run (ops : List Op) : State B := ops.foldl (step T) (.new T)

end EncryptedDedup.SDFS.ProgressiveLongMap
