import EncryptedDedup.SDFS.WritableCacheBuffer

/-!
# `LocalLookupFilter`

A filter counts the references to a chunk that the files of its user hold. The record of a key in its
table is the location of the chunk and the count. The global store is a map of counts.
-/

namespace EncryptedDedup.SDFS

namespace LocalLookupFilter

inductive Failure where
  | bufferUnderflow
  | bufferOverflow
  | indexOutOfBounds
  /-- `"Hashtable " + this.fileName + " is close"`. -/
  | closed
  /-- `"npos " + npos + " != pos" + pos`. -/
  | positions (npos pos : Int)
  deriving DecidableEq

def orFail {α : Type} (x : Option α) (e : Failure) : Except Failure α :=
  match x with
  | some a => .ok a
  | none => .error e

end LocalLookupFilter

structure LocalLookupFilter where
  closed : Bool
  db : Bytes → Option Bytes

namespace LocalLookupFilter

/-- The filters, and the references to every chunk in the global store. -/
structure Stores (ι : Type) where
  filters : ι → LocalLookupFilter
  references : Bytes → Int

variable {ι : Type} [DecidableEq ι]

namespace Stores

def record (s : Stores ι) (f : ι) (key : Bytes) : Option Bytes := (s.filters f).db key

/-- `db.put(key, v)`, or `db.delete(key)`. -/
def store (s : Stores ι) (f : ι) (key : Bytes) (v : Option Bytes) : Stores ι :=
  { s with filters := fun g =>
      if g = f then { s.filters g with db := fun k => if k = key then v else (s.filters g).db k } else s.filters g }

/-- What `writeChunk` and `claimKey` of the global store do to the references of a chunk. -/
def claim (s : Stores ι) (key : Bytes) (ct : Int) : Stores ι :=
  { s with references := fun k => if k = key then s.references k + ct else s.references k }

end Stores

def newRecord (locs : Bytes) (ct : Int) : Except Failure Bytes := do
  let bf ← orFail ((ByteBuffer.allocate 16).put locs) .bufferOverflow
  let bf ← orFail (bf.putLong (if ct ≤ 0 then 1 else ct)) .bufferOverflow
  return bf.array

/-- The count that is next in `bk`, and `ct` more references, or one. -/
def addTo (bk : ByteBuffer) (ct : Int) : Except Failure Int := do
  let (n, _) ← orFail bk.getLong .bufferUnderflow
  return if ct ≤ 0 then long (n + 1) else long (ct + n)

/-- `put(key, contents, ct, uuid)`; `locs` is where the global store keeps the chunk. -/
def put (s : Stores ι) (f : ι) (key locs : Bytes) (ct : Int) : Except Failure (InsertRecord × Stores ι) := do
  if (s.filters f).closed then throw .closed
  match s.record f key with
  | none =>
    let s := s.claim key 1
    let v ← newRecord locs ct
    return (⟨true, locs⟩, s.store f key (some v))
  | some v =>
    let (pos, bk) ← orFail (ByteBuffer.wrap v).getLong .bufferUnderflow
    let ct ← addTo bk ct
    let bk ← orFail (bk.putLongAt 8 ct) .indexOutOfBounds
    return (⟨false, toBE64 pos⟩, s.store f key (some bk.array))

/-- `put(key, ct)`. -/
def putAgain (s : Stores ι) (f : ι) (key : Bytes) (ct : Int) : Except Failure (Int × Stores ι) := do
  if (s.filters f).closed then throw .closed
  match s.record f key with
  | none => return (-1, s)
  | some v =>
    let (pos, bk) ← orFail (ByteBuffer.wrap v).getLong .bufferUnderflow
    let ct ← addTo bk ct
    let bk ← orFail (bk.putLongAt 8 ct) .indexOutOfBounds
    return (pos, s.store f key (some bk.array))

/-- `put(key, pos, ct)`. A record that exists is read on behind its count. -/
def putAt (s : Stores ι) (f : ι) (key : Bytes) (pos ct : Int) : Except Failure (Stores ι) := do
  if (s.filters f).closed then throw .closed
  match s.record f key with
  | none =>
    let v ← newRecord (toBE64 pos) ct
    return s.store f key (some v)
  | some v =>
    let (npos, bk) ← orFail (ByteBuffer.wrap v).getLong .bufferUnderflow
    if npos ≠ pos then throw (.positions npos pos)
    let (n, bk) ← orFail bk.getLong .bufferUnderflow
    let ct ← addTo bk (long (ct + n))
    let bk ← orFail (bk.putLongAt 8 ct) .indexOutOfBounds
    return s.store f key (some bk.array)

/-- `claimKey(hash, val, ct)`. -/
def claimKey (s : Stores ι) (f : ι) (hash : Bytes) (val ct : Int) : Except Failure (Int × Stores ι) :=
  match s.record f hash with
  | none => return (ct, s)
  | some v => do
    let (oval, bk) ← orFail (ByteBuffer.wrap v).getLong .bufferUnderflow
    if oval ≠ val then return (ct, s.claim hash ct)
    let (n, bk) ← orFail bk.getLong .bufferUnderflow
    let ct := long (ct + n)
    if ct ≤ 0 then
      let ct := if ct = 0 then -1 else ct
      return (ct, (s.store f hash none).claim hash ct)
    else
      let bk ← orFail (bk.putLongAt (v.length - 8) ct) .indexOutOfBounds
      return (0, s.store f hash (some bk.array))

end LocalLookupFilter

end EncryptedDedup.SDFS
