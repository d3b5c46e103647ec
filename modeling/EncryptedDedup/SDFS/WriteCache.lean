import EncryptedDedup.SDFS.References
import EncryptedDedup.SDFS.RocksDBMap

/-!
# The claims of a flush

The store counts the references to every chunk. A chunk that is written claims some, and `addRef` adds more or takes
some away. `close` writes the extents or the bytes of a buffer, and puts a new record into the map of the file.
-/

namespace EncryptedDedup.SDFS

abbrev Claims : Type := Bytes × Bytes → Int

namespace Services

variable {σ : Type} (V : Services σ)

/-- Services that count what is claimed. A finger has -1 claims from its constructor, and `put` counts at least one. -/
def claiming : Services (σ × Claims) where
  config := V.config
  getHash := V.getHash
  getChunks := V.getChunks
  writeChunk s hash chunk := (V.writeChunk s.1 hash chunk).map fun r =>
    ((r.1, Function.update s.2 (hash, r.2.hashlocs) (s.2 (hash, r.2.hashlocs) + RocksDBMap.claims (-1))), r.2)
  fetchChunk s := V.fetchChunk s.1
  turns := V.turns
  stack := V.stack

/-- The calls of `addRef` for some counts, with `claimKey` of each chunk that is counted. -/
def addRefs (claims : Claims) (ct : RefCounts) : Claims := fun k =>
  if V.counts ⟨k.1, k.2, 0, 0, 0, 0, false, false⟩ then claims k + (ct k).getD 0 else claims k

/-! ### `writeCache` -/

/-- The first finger with each hash, with its claims. -/
def countFinger (mp : OrderedMap Bytes (Finger × Int)) (f : Finger) : OrderedMap Bytes (Finger × Int) :=
  mp.put f.hash (match mp.get f.hash with
    | none => (f, 1)
    | some (g, claims) => (g, claims + 1))

def countFingers (fs : List Finger) : OrderedMap Bytes (Finger × Int) := fs.foldl countFinger .empty

/-- The executor writes the fingers with their claims. If one cannot be written the flush fails. -/
def writeFingers : σ × Claims → List (Finger × Int) → Option ((σ × Claims) × (Bytes → Option InsertRecord))
  | s, [] => some (s, fun _ => none)
  | s, (f, claims) :: rest => do
    let (store, hl) ← V.writeChunk s.1 f.hash f.chunk
    let counts := Function.update s.2 (f.hash, hl.hashlocs) (s.2 (f.hash, hl.hashlocs) + RocksDBMap.claims claims)
    let (s, hls) ← writeFingers (store, counts) rest
    return (s, Function.update hls f.hash (some hl))

/-- The extents of the fingers. Only the first finger with a hash has a record of its own. -/
def layFingers (hls : Bytes → Option InsertRecord) : List Bytes → Int → List Finger → Option (List HashLocPair)
  | _, _, [] => some []
  | seen, start, f :: fs => do
    let hl ← hls f.hash
    let rest ← layFingers hls (f.hash :: seen) (start + f.len) fs
    let dup := seen.any (fun hash => hash = f.hash) || !hl.inserted
    return ⟨f.hash, hl.hashlocs, f.len, start, 0, f.len, dup, false⟩ :: rest

end Services

/-- `TreeMap` of extents by their positions. -/
def Fingers.ofValues (ps : List HashLocPair) : Fingers := ps.foldl (fun ar p => ar.put p.pos p) .empty

/-- `SparseDataChunk(int, TreeMap, boolean, byte)`. -/
def SparseDataChunk.ofFingers (doop : Int) (ar : Fingers) (version : UInt8) : SparseDataChunk :=
  ⟨doop, 0, 0, 0, version, .ofValues ar.values⟩

namespace WritableCacheBuffer
open Program

variable {σ : Type} (V : Services σ) (version : UInt8)

/-- `setAR(al)`. -/
def assignAR (al : Fingers) : Method (σ × Claims) Unit :=
  modify fun w => { w with store := (w.store.1, V.addRefs w.store.2 w.setAR), ar := al }

/-- `reReference`, with the copy that it gives up. -/
def rereference : Method (σ × Claims) Unit :=
  modify fun w => { w with store := (w.store.1, V.addRefs w.store.2 w.reReference), arCopy := none }

/-- `SparseDedupFile.writeCache` of a dirty buffer, with the record that it puts. The fingers are written in some order. -/
def writeCache (order : List (Finger × Int) → List (Finger × Int)) : Method (σ × Claims) SparseDataChunk := do
  let b ← getFlushedBuffer V.claiming
  let w ← get
  let fs := V.getChunks b
  match V.writeFingers w.store (order ((Services.countFingers fs).entries.map Prod.snd)) with
  | none => throw .ioException
  | some (store, hls) =>
    modify fun w => { w with store := store }
    match Services.layFingers hls [] 0 fs with
    | none => throw .nullPointer
    | some ps =>
      assignAR V (.ofValues ps)
      let dups := (ps.filter HashLocPair.dup).foldl (fun dups p => int (dups + p.len)) 0
      return .ofFingers dups (.ofValues ps) version

/-- The marks of a buffer that is closed. -/
def afterClose (w : WritableCacheBuffer σ) : WritableCacheBuffer σ :=
  { w with closed := true, flushing := false, dirty := false, hlAdded := false }

/-- The `try` block of `close`, with the record that `updateMap` puts. -/
def closeFlushing (order : List (Finger × Int) → List (Finger × Int)) : Method (σ × Claims) (Option SparseDataChunk) := do
  writeAccelBuffer V.claiming
  let w ← get
  if w.closed then return none
  else if w.hlAdded then
    rereference V
    modify afterClose
    return some (.ofFingers V.config.chunkLength w.ar version)
  else if w.dirty then
    let ck ← writeCache V version order
    modify afterClose
    return some ck
  else
    modify afterClose
    return none

/-- A failure opens the buffer again. -/
def close (order : List (Finger × Int) → List (Finger × Int)) : Method (σ × Claims) (Option SparseDataChunk) := do
  let w ← get
  if w.flushing then
    (closeFlushing V version order).handle fun _ => do
      modify open_
      throw .ioException
  else return none

end WritableCacheBuffer

end EncryptedDedup.SDFS
