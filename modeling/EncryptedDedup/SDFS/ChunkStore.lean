import EncryptedDedup.SDFS.OpenArchive
import EncryptedDedup.SDFS.RocksDBLookup

/-!
# The chunk store

`RocksDBMap` says in which archive a chunk is, and `HashBlobArchive` keeps the archives. Threads put chunks and claim
references, archives are uploaded, the collector removes keys, and the store compacts archives.
-/

namespace EncryptedDedup.SDFS

open HashBlobArchive (Archive Writers Stored Site Found PutError Reserved Outside)

namespace ChunkStore

inductive Files where
  /-- It is in `rchunks`. -/
  | writing (setup : Archive) (uuid : String) (w : Writers)
  | stored (st : Stored)
  | deleted

inductive Phase where
  /-- At the start of its loop. -/
  | start
  /-- It has looked up the archive of its uuid. -/
  | found (ar : Option Int)
  /-- That was none, or does not take the chunk. -/
  | refused
  | reserved (id : Int) (r : Reserved)
  /-- It has returned, or has thrown that the archive has the hash. -/
  | persisted (cPos : Int)

structure Putting where
  references : Int
  chunk : Bytes
  uuid : String
  phase : Phase

structure Compaction where
  id : Int
  /-- What the iteration over the map of the archive has still to show. -/
  rest : List (Bytes × Int)
  ar : List (Bytes × Int)

end ChunkStore

open ChunkStore in
structure ChunkStore where
  hashes : RocksDBMap
  archives : Int → Option Files
  writableArchives : String → Option Int
  /-- The calls of `put` that hold the locks of their keys. -/
  putting : Bytes → Option Putting
  compacting : Option Compaction

namespace ChunkStore

/-! ### Putting chunks -/

def setPhase (s : ChunkStore) (hash : Bytes) (p : Putting) (phase : Phase) : ChunkStore :=
  { s with putting := Function.update s.putting hash (some { p with phase := phase }) }

def setArchive (s : ChunkStore) (id : Int) (files : Files) : ChunkStore :=
  { s with archives := Function.update s.archives id (some files) }

def giveUp (s : ChunkStore) (hash : Bytes) : ChunkStore := { s with putting := Function.update s.putting hash none }

/-- `put`. A key that is in the map is counted; for another one `persistData` begins. -/
def put (s : ChunkStore) (cm : ChunkData) (chunk : Bytes) (uuid : String) : ChunkStore :=
  match s.putting cm.hash with
  | some _ => s
  | none =>
    match s.hashes.put cm none with
    | .ok (_, hashes) => { s with hashes := hashes }
    | .error .persist =>
      { s with putting := Function.update s.putting cm.hash (some ⟨cm.references, chunk, uuid, .start⟩) }
    | .error _ => s

/-- `writableArchives.get(uuid)`. -/
def getArchive (s : ChunkStore) (hash : Bytes) : ChunkStore :=
  match s.putting hash with
  | some p =>
    match p.phase with
    | .start => s.setPhase hash p (.found (s.writableArchives p.uuid))
    | _ => s
  | none => s

/-- Where `writeBlock` goes on after what its first call of `putChunk` throws; it throws itself where nothing is given. -/
def caught (id : Int) : PutError → Option Phase
  | .hashExists => some (.persisted id)
  | .archiveFull => some .refused
  | .readOnlyArchive => some .refused
  | .io => none

/-- The locked section of `ar.putChunk(hash, chunk)`. -/
def putChunk (s : ChunkStore) (hash : Bytes) (p : Putting) (id : Int) (a : Archive) (uuid : String) (w : Writers)
    (found : Found) (caught : PutError → Option Phase) : ChunkStore :=
  let after := s.setArchive id (.writing a uuid (w.reserve a hash p.chunk found))
  match (HashBlobArchive.reserveIn a w.writer hash p.chunk found).2 with
  | .ok r => after.setPhase hash p (.reserved id r)
  | .error e =>
    match caught e with
    | some phase => after.setPhase hash p phase
    | none => after.giveUp hash

/-- The first call of `putChunk` in `writeBlock`. -/
def tryArchive (s : ChunkStore) (hash : Bytes) (found : Found) : ChunkStore :=
  match s.putting hash with
  | some p =>
    match p.phase with
    | .found none => s.setPhase hash p .refused
    | .found (some id) =>
      match s.archives id with
      | some (.writing a uuid w) => s.putChunk hash p id a uuid w found (caught id)
      | _ => s.setPhase hash p .refused
    | _ => s
  | none => s

structure NewArchive where
  id : Int
  setup : Archive
  /-- The slots of its map. -/
  size : Nat

/-- A new archive, with the chunk as its first one. It is registered for the uuid if it takes the chunk. -/
def newArchive (s : ChunkStore) (hash : Bytes) (p : Putting) (new : NewArchive) (found : Found) : ChunkStore :=
  let w : Writers := ⟨.new new.setup new.size, [], []⟩
  let w' := w.reserve new.setup hash p.chunk found
  match (HashBlobArchive.reserveIn new.setup w.writer hash p.chunk found).2 with
  | .ok r =>
    { (s.setArchive new.id (.writing new.setup p.uuid (w'.write r))).setPhase hash p (.persisted new.id) with
      writableArchives := Function.update s.writableArchives p.uuid (some new.id) }
  | .error _ => (s.setArchive new.id (.writing new.setup p.uuid w')).setPhase hash p .start

/-- The section of `writeBlock` under the write lock. Whatever it throws, the loop starts again. -/
def lockedPut (s : ChunkStore) (hash : Bytes) (found : Found) (new : NewArchive) : ChunkStore :=
  match s.putting hash with
  | some p =>
    match p.phase with
    | .refused =>
      match s.writableArchives p.uuid with
      | none => s.newArchive hash p new found
      | some id =>
        match s.archives id with
        | some (.writing a uuid w) =>
          if w.writer.writeable then s.putChunk hash p id a uuid w found fun _ => some .start
          else s.newArchive hash p new found
        | _ => s.newArchive hash p new found
    | _ => s
  | none => s

/-- The record is written, and `putChunk` returns. -/
def write (s : ChunkStore) (hash : Bytes) : ChunkStore :=
  match s.putting hash with
  | some p =>
    match p.phase with
    | .reserved id r =>
      match s.archives id with
      | some (.writing a uuid w) => (s.setArchive id (.writing a uuid (w.write r))).setPhase hash p (.persisted id)
      | _ => s
    | _ => s
  | none => s

/-- `put` goes on after `persistData`. -/
def finish (s : ChunkStore) (hash : Bytes) : ChunkStore :=
  match s.putting hash with
  | some p =>
    match p.phase with
    | .persisted cPos =>
      match s.hashes.put ⟨hash, p.references⟩ (some cPos) with
      | .ok (_, hashes) => { s.giveUp hash with hashes := hashes }
      | .error _ => s.giveUp hash
    | _ => s
  | none => s

/-! ### The map -/

/-- A step of the map that needs no lock. -/
def onHashes (s : ChunkStore) (e : RocksDBMap.Step) : ChunkStore :=
  match s.hashes.step e with
  | .ok hashes => { s with hashes := hashes }
  | .error _ => s

/-- A step of the map that needs the lock of a key. -/
def onKey (s : ChunkStore) (hash : Bytes) (e : RocksDBMap.Step) : ChunkStore :=
  match s.putting hash with
  | some _ => s
  | none => s.onHashes e

/-- A turn of the collector, which needs the lock of the key that its iterator shows. -/
def claimNext (s : ChunkStore) : ChunkStore :=
  match s.hashes.iter with
  | some ((hash, _) :: _) => s.onKey hash .claimNext
  | _ => s.onHashes .claimNext

/-! ### Archives -/

/-- `upload` closes the archive, and removes whatever is registered for its uuid. -/
def upload (s : ChunkStore) (id : Int) : ChunkStore :=
  match s.archives id with
  | some (.writing a uuid w) =>
    { s.setArchive id (.writing a uuid w.close) with writableArchives := Function.update s.writableArchives uuid none }
  | _ => s

/-- The files of an archive that is uploaded are moved to where they are read. Uploading waits for the calls of
`putChunk`. -/
def moveFile (s : ChunkStore) (id : Int) : ChunkStore :=
  match s.archives id with
  | some (.writing a _ w) =>
    if w.writer.writeable = false ∧ w.waiting = [] then s.setArchive id (.stored ⟨a, w.writer.f, w.writer.map.kFC⟩) else s
  | _ => s

variable (site : Site)

/-- `compactArchive(id)` begins, if no other call runs. It returns at once when archives are not written, and when
`wMaps.get` does not throw. -/
def compactArchive (s : ChunkStore) (id : Int) (disableWrite mapped : Bool) : ChunkStore :=
  match s.compacting, s.archives id with
  | none, some (.stored st) =>
    if disableWrite || mapped then s
    else
      match SimpleByteArrayLongMap.enumerate st.setup.hashLength (st.getRawMap site) site.order with
      | .finished (.ok l, _) => { s with compacting := some ⟨id, l, []⟩ }
      | _ => s
  | _, _ => s

/-- The compaction asks whether the map still has the next key at its archive. -/
def compactNext (s : ChunkStore) : ChunkStore :=
  match s.compacting with
  | some ⟨id, p :: rest, ar⟩ =>
    match s.putting p.1 with
    | some _ => s
    | none =>
      { s with compacting := some ⟨id, rest, if s.hashes.mightContainKey p.1 id then ar ++ [p] else ar⟩ }
  | _ => s

/-- It has asked for all keys, and rewrites the archive. -/
def compactEnd (s : ChunkStore) (c : Outside) : ChunkStore :=
  match s.compacting with
  | some ⟨id, [], ar⟩ =>
    match s.archives id with
    | some (.stored st) =>
      match (HashBlobArchive.compactRest site st c ar).1 with
      | some st => { s.setArchive id (.stored st) with compacting := none }
      | none => { s.setArchive id .deleted with compacting := none }
    | _ => s
  | _ => s

/-! ### Steps -/

inductive Step where
  | put (cm : ChunkData) (chunk : Bytes) (uuid : String)
  | getArchive (hash : Bytes)
  | tryArchive (hash : Bytes) (found : Found)
  | lockedPut (hash : Bytes) (found : Found) (new : NewArchive)
  | write (hash : Bytes)
  | finish (hash : Bytes)
  | claimKey (hash : Bytes) (val ct : Int)
  | hashBlobArchiveSync (b : Bytes)
  | startClaimRecords
  | claimNext
  | tick (millis : Nat)
  | upload (id : Int)
  | moveFile (id : Int)
  | compactArchive (id : Int) (disableWrite mapped : Bool)
  | compactNext
  | compactEnd (c : Outside)

/-- A step for which a lock is taken, or that cannot be made, changes nothing. -/
def step (s : ChunkStore) : Step → ChunkStore
  | .put cm chunk uuid => s.put cm chunk uuid
  | .getArchive hash => s.getArchive hash
  | .tryArchive hash found => s.tryArchive hash found
  | .lockedPut hash found new => s.lockedPut hash found new
  | .write hash => s.write hash
  | .finish hash => s.finish hash
  | .claimKey hash val ct => s.onKey hash (.claimKey hash val ct)
  | .hashBlobArchiveSync b => s.onKey b (.hashBlobArchiveSync b)
  | .startClaimRecords => s.onHashes .startClaimRecords
  | .claimNext => s.claimNext
  | .tick millis => s.onHashes (.tick millis)
  | .upload id => s.upload id
  | .moveFile id => s.moveFile id
  | .compactArchive id disableWrite mapped => s.compactArchive site id disableWrite mapped
  | .compactNext => s.compactNext
  | .compactEnd c => s.compactEnd site c

/-! ### Reading -/

def Files.read (hash : Bytes) : Files → Option Bytes
  | .writing a _ w => w.writer.read a hash
  | .stored st => st.read site hash
  | .deleted => none

/-- Nothing is returned where `getBlock` returns `null` or throws. -/
def getBlock (s : ChunkStore) (hash : Bytes) (hbid : Int) : Option Bytes := (s.archives hbid).bind (Files.read site hash)

def getData (s : ChunkStore) (key : Bytes) : Option Bytes :=
  if s.hashes.closed then none
  else
    let ps := s.hashes.get key
    if ps ≠ -1 then s.getBlock site key ps else none

def getDataAt (s : ChunkStore) (key : Bytes) (pos : Int) : Option Bytes :=
  if s.hashes.closed then none
  else if pos = -1 then s.getData site key
  else
    let data := s.getBlock site key pos
    if data = none ∨ data = some [] then s.getData site key else data

end ChunkStore

end EncryptedDedup.SDFS
