import EncryptedDedup.Lib.GrowingFile
import EncryptedDedup.SDFS.HashBlobArchive
import EncryptedDedup.SDFS.NextPrime
import EncryptedDedup.SDFS.SimpleByteArrayLongMap

/-!
# The files of a `HashBlobArchive`

An archive is a file of records and the file of its map. A compaction copies the records that are still needed
into a new archive, and moves the files of the new one over those of the old one.
-/

namespace EncryptedDedup.SDFS.HashBlobArchive

/-! ### Putting chunks -/

/-- An archive that takes chunks. Writes to its file wait until the record has its place. -/
structure Writer where
  writeable : Bool
  np : Int
  map : SimpleByteArrayLongMap.State
  f : Bytes

/-- The constructor of a writable archive. `size` is the prime that the constructor of its map computes. -/
def Writer.new (a : Archive) (size : Nat) : Writer :=
  ⟨true, a.offset, SimpleByteArrayLongMap.setUp a.hashLength size a.version none, a.header⟩

/-- The locked section of `putChunk`, in which the map answers for itself. -/
def reserveIn (a : Archive) (w : Writer) (hash chunk : Bytes) (found : Found) : Writer × Except PutError Reserved :=
  if found.uploading then (w, .error .archiveFull)
  else
    let stored := a.encode chunk
    if w.writeable = false then (w, .error .readOnlyArchive)
    else if a.blocksz ≤ w.np then ({ w with writeable := false }, .error .archiveFull)
    else if found.noMap then (w, .error .io)
    else if a.wMaxSz ≤ w.map.currentSz then ({ w with writeable := false }, .error .archiveFull)
    else if found.noFile then (w, .error .io)
    else
      let cp := w.np
      match SimpleByteArrayLongMap.put a.hashLength w.map hash (entryOf a hash stored cp) with
      | (map, .error .illegalState) => ({ w with map := map, writeable := false }, .error .archiveFull)
      | (map, .error .mapClosed) => ({ w with map := map, writeable := false }, .error .archiveFull)
      | (map, .error _) => ({ w with map := map }, .error .io)
      | (map, .ok false) => ({ w with map := map }, .error .hashExists)
      | (map, .ok true) =>
        ({ w with map := map, np := cp + 4 + hash.length + 4 + stored.length }, .ok ⟨hash, chunk, stored, cp⟩)

def Writer.writeRecord (w : Writer) (r : Reserved) : Writer := { w with f := writeAt w.f r.cp.toNat r.bytes }

def alone : Found := ⟨false, false, false, .works⟩

def putChunk (a : Archive) (w : Writer) (hash chunk : Bytes) (found : Found) : Writer × Except PutError Unit :=
  match reserveIn a w hash chunk found with
  | (w, .ok r) => (w.writeRecord r, .ok ())
  | (w, .error e) => (w, .error e)

/-! ### Reading -/

/-- The files of an archive that takes no more chunks. -/
structure Stored where
  setup : Archive
  f : Bytes
  map : Bytes

structure Site where
  /-- The prime for `MAX_HM_SZ`. -/
  maxHmSz : Nat
  order : SimpleByteArrayLongMap.HashOrder

variable (site : Site)

def Stored.getRawMap (st : Stored) : SimpleByteArrayLongMap.State :=
  SimpleByteArrayLongMap.setUp st.setup.hashLength site.maxHmSz st.setup.version (some st.map)

/-- What `blockMap.get` finds, if it does not throw. -/
def lookup (hashLength : Nat) (map : SimpleByteArrayLongMap.State) (hash : Bytes) : Option Int :=
  match SimpleByteArrayLongMap.get hashLength map hash with
  | .ok pos => some pos
  | .error _ => none

def Stored.state (st : Stored) : State :=
  let map := st.getRawMap site
  ⟨false, st.f.length, lookup st.setup.hashLength map, map.currentSz, byteAt st.f⟩

/-- `getChunk` of an archive whose files are where they are read. -/
def Stored.read (st : Stored) (hash : Bytes) : Option Bytes := getChunk st.setup (st.state site) hash

/-- `getChunk` of an archive that takes chunks, whose map is in `wMaps`. -/
def Writer.read (a : Archive) (w : Writer) (hash : Bytes) : Option Bytes :=
  getChunk a ⟨w.writeable, w.np, lookup a.hashLength w.map, w.map.currentSz, byteAt w.f⟩ hash

/-! ### Compaction -/

inductive Move where
  | works
  /-- The file of the records cannot be moved. -/
  | fileFails
  /-- It is moved, and the file of the map cannot be. -/
  | mapFails
  /-- Both are moved, and the map cannot be copied. -/
  | copyFails
  deriving DecidableEq

structure Outside where
  /-- `DISABLE_WRITE`. -/
  disableWrite : Bool
  /-- `wMaps.get` does not throw. Its loader opens the map of the archive where the archive is written, which for local
  data is where it is read. -/
  mapped : Bool
  /-- `mightContainKey`. -/
  live : Bytes → Bool
  /-- A file operation fails for the chunk. -/
  broken : Bytes → Bool
  /-- What the calls of `moveFile` meet. -/
  moves : Nat → Move
  /-- The id of the new archive, which no other archive has. -/
  id : Int
  /-- The vector of the new archive, and the cipher that it makes. -/
  iv : Bytes
  encryptCBC : Bytes → Bytes
  decryptCBC : Bytes → Option Bytes
  nextSize : Nat

/-- The archive `_har`, for a map of so many slots. -/
def Archive.staged (a : Archive) (c : Outside) (size : Nat) (bsz : Int) : Archive :=
  { a with
    blocksz := if 0 < bsz then bsz.toNat else c.nextSize
    wMaxSz := size * 3 / 4
    iv := c.iv
    encryptCBC := c.encryptCBC
    decryptCBC := c.decryptCBC }

/-- `wOpenFiles.get` finds the file of the new archive. The constructor of `_har` makes it if `VERSION` is above 0, and
not in the directory where local data of a longer id is. -/
def Archive.Opens (a : Archive) (id : Int) : Prop := a.version ≠ 0 ∧ (a.localData = false ∨ -100 < id ∧ id < 100)

instance Archive.instDecidableOpens (a : Archive) (id : Int) : Decidable (a.Opens id) :=
  inferInstanceAs (Decidable (_ ∧ _))

/-- What a put into the new archive finds. -/
def Outside.found (c : Outside) (har : Archive) : Found := { alone with noFile := ¬ har.Opens c.id }

/-- The loop that copies the chunks. -/
def copyChunks (st : Stored) (c : Outside) (har : Archive) : List (Bytes × Int) → Writer → Except PutError Writer
  | [], w => .ok w
  | (key, _) :: ar, w =>
    if c.broken key then .error .io
    else
      match st.read site key with
      -- `ck.length` throws.
      | none => .error .io
      | some ck =>
        match putChunk har w key ck (c.found har) with
        | (w, .ok ()) => copyChunks st c har ar w
        | (w, .error .hashExists) => copyChunks st c har ar w
        | (_, .error e) => .error e

/-- The files of the new archive, as long as its records are not moved, and those that are read. -/
structure Moving where
  har : Option Stored
  disk : Stored

/-- A call of `moveFile`. One that does not find the file of the records any more has nothing to do. -/
def moveFile (m : Moving) (move : Move) : Moving × Bool :=
  match m.har with
  | none => (m, true)
  | some har =>
    match move with
    | .fileFails => (m, false)
    | .mapFails => (⟨none, { har with map := m.disk.map }⟩, false)
    | .copyFails => (⟨none, har⟩, false)
    | .works => (⟨none, har⟩, true)

def moveFiles (moves : Nat → Move) : Nat → Nat → Moving → Moving × Bool
  | 0, _, m => (m, false)
  | n + 1, i, m =>
    match moveFile m (moves i) with
    | (m, true) => (m, true)
    | (m, false) => moveFiles moves n (i + 1) m

/-- `compact` from where the entries that are still needed are in `ar`: what is there afterwards, and what is returned. -/
def compactRest (st : Stored) (c : Outside) (ar : List (Bytes × Int)) : Option Stored × Except PutError Int :=
  let ofl := st.f.length
  if ar = [] then (none, .ok (-1 * ofl))
  else
    match NextPrime.getNextPrimeI (ar.length * 2 + 5) with
    | .finished (.ok size) =>
      let har := st.setup.staged c size (int ofl)
      match copyChunks site st c har ar (.new har size) with
      | .error e => (some st, .error e)
      | .ok w =>
        if har.offset < w.f.length then
          match moveFiles c.moves 5 0 ⟨some ⟨har, w.f, w.map.kFC⟩, st⟩ with
          | (m, true) => (some m.disk, .ok (m.disk.f.length - ofl))
          | (m, false) => (some m.disk, .error .io)
        else (some st, .ok 0)
    | _ => (some st, .error .io)

def compact (st : Stored) (c : Outside) : Option Stored × Except PutError Int :=
  if c.disableWrite ∨ c.mapped then (some st, .ok 0)
  else
    match SimpleByteArrayLongMap.enumerate st.setup.hashLength (st.getRawMap site) site.order with
    | .finished (.ok l, _) => compactRest site st c (l.filter fun p => c.live p.1)
    | _ => (some st, .error .io)

end EncryptedDedup.SDFS.HashBlobArchive
