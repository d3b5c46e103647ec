import EncryptedDedup.Lib.Cursor
import EncryptedDedup.Lib.Double
import EncryptedDedup.Lib.GrowingFile
import EncryptedDedup.SDFS.SparseDataChunk

/-!
# `LongByteArrayMap`

The map of a file is a file itself, with a slot for every chunk behind a header. A slot of zeros is free.
-/

namespace EncryptedDedup.SDFS

def Config.v2arrayLength (K : Config) : Nat := (int (1 + 4 + 4 + 4 + K.bal * K.maxElementsPerAr)).toNat

structure LongByteArrayMap where
  version : UInt8
  /-- What `dbFile` contains. -/
  db : Bytes

namespace LongByteArrayMap

variable (K : Config)

def arrayLength (version : UInt8) : Nat :=
  if version = 0 then K.freeLength else if version = 1 then K.v1arrayLength else K.v2arrayLength

def offset (version : UInt8) : Nat := if version = 0 then 0 else if version = 1 then 64 else 256

def free (version : UInt8) : Bytes := zeros (arrayLength K version)

/-- A map whose file `openFile` creates. From version 1 on it starts with `magicnumber` and the version. -/
def create (version : UInt8) : LongByteArrayMap := ⟨version, if version = 0 then [] else [25, 42, version]⟩

variable (m : LongByteArrayMap)

def slotPosition (i : Nat) : Nat := i * arrayLength K m.version + offset m.version

def getMapFilePosition (pos : Nat) : Nat := slotPosition K m (pos / K.chunkLength.toNat)

/-- The bytes of a slot, as a buffer has them after it is read. -/
def readSlot (buf : Bytes) (i : Nat) : Bytes := readInto buf m.db (slotPosition K m i)

/-! ### Access by position -/

def put (pos : Nat) (data : SparseDataChunk) : Except Thrown LongByteArrayMap := do
  let raw ← (data.getBytes K).2
  return { m with db := writeAt m.db (getMapFilePosition K m pos) raw }

def remove (pos : Nat) : LongByteArrayMap :=
  { m with db := writeAt m.db (getMapFilePosition K m pos) (free K m.version) }

/-- The length of the record at a position of the file. From version 2 on it is in the record. -/
def recordLength (fpos : Nat) : Int :=
  if 1 < m.version then ofBE32 (slice (readInto (zeros 5) m.db fpos) 1 4) else arrayLength K m.version

def get (pos : Nat) : Except Thrown (Option SparseDataChunk) :=
  let fpos := getMapFilePosition K m pos
  if m.db.length < fpos then .ok none
  else
    let length := recordLength K m fpos
    if length < 0 then .error .ioException
    else if 1 < m.version ∧ length = 0 then .ok none
    else
      let buf := readInto (zeros length.toNat) m.db fpos
      if buf = free K m.version then .ok none
      else match SparseDataChunk.ofBytes K buf m.version with
        | .ok ck => .ok (some ck)
        | .error .bufferUnderflow => .ok none
        | .error _ => .error .ioException

/-! ### Trim -/

/-- The loop of `trim`, with the references that it removes. A record that cannot be decoded ends it. -/
def trimLoop (refCount : Bool) : Nat → Nat → LongByteArrayMap → List HashLocPair → LongByteArrayMap × List HashLocPair
  | 0, _, m, refs => (m, refs)
  | n + 1, pos, m, refs =>
    let val := readInto (zeros (arrayLength K m.version)) m.db pos
    let cleared := { m with db := writeAt m.db pos (free K m.version) }
    if refCount = true ∧ val ≠ free K m.version then
      match SparseDataChunk.ofBytes K val m.version with
      | .ok ck => trimLoop refCount n (pos + arrayLength K m.version) cleared (refs ++ ck.ar.values)
      | .error _ => (m, refs)
    else trimLoop refCount n (pos + arrayLength K m.version) cleared refs

def trim (refCount : Bool) (pos : Nat) (len : Int) : LongByteArrayMap × List HashLocPair :=
  let spos := ⌈Double.quotient pos K.chunkLength⌉
  let epos := ⌊Double.quotient (pos + len) K.chunkLength⌋
  let ls := spos * arrayLength K m.version + offset m.version
  let es := epos * arrayLength K m.version + offset m.version
  if es ≤ ls then (m, [])
  -- The loop writes slot after slot from `ls` up to `es`.
  else trimLoop K refCount (epos - spos).toNat ls.toNat m []

/-! ### Iteration -/

/-- `iterPos` is raised in the loop of `nextKey`, and again in its `finally`. -/
def keyCursor : Cursor Nat Nat where
  inside i := decide (slotPosition K m i < m.db.length)
  find i := if readSlot K m (free K m.version) i = free K m.version then none else some (i * K.chunkLength.toNat)
  advance i := i + 1 + 1

/-- The state is `iterPos`; `none` stands for -1. -/
def nextKey : Nat → Except Thrown (Option Nat) × Nat :=
  (keyCursor K m).next m.db.length .ok fun i =>
    if slotPosition K m i ≠ m.db.length then .error .ioException else .ok ()

/-- `iterPos` and `nbuf`, which all calls of `nextValue` read into. -/
structure ValueIter where
  iterPos : Nat
  nbuf : Option Bytes

def ValueIter.filled (it : ValueIter) : Bytes := readSlot K m (it.nbuf.getD (free K m.version)) it.iterPos

def valueCursor : Cursor ValueIter Bytes where
  inside it := decide (slotPosition K m it.iterPos < m.db.length)
  find it := if it.filled K m = free K m.version then none else some (it.filled K m)
  advance it := ⟨it.iterPos + 1, some (it.filled K m)⟩

def nextValue : ValueIter → Except Thrown (Option SparseDataChunk) × ValueIter :=
  (valueCursor K m).next m.db.length (fun val => SparseDataChunk.ofBytes K val m.version) fun _ => .ok ()

def keyValueCursor : Cursor Nat (Nat × Bytes) where
  inside i := decide (slotPosition K m i < m.db.length)
  find i :=
    let val := readSlot K m (free K m.version) i
    if val = free K m.version then none else some (i, val)
  advance i := i + 1

/-- The key of a `LongKeyValue` is the position of its chunk. -/
def keyValue (iterPos : Nat) (val : Bytes) : Except Thrown (Nat × SparseDataChunk) := do
  let ck ← SparseDataChunk.ofBytes K val m.version
  return (iterPos * K.chunkLength.toNat, ck)

def nextKeyValue : Nat → Except Thrown (Option (Nat × SparseDataChunk)) × Nat :=
  (keyValueCursor K m).next m.db.length (fun p => keyValue K m p.1 p.2) fun _ => .ok ()

end LongByteArrayMap

end EncryptedDedup.SDFS
