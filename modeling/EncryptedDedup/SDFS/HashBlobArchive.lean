import EncryptedDedup.SDFS.HashLocPair
import EncryptedDedup.Lib.ByteBuffer
import EncryptedDedup.Lib.Overlay
import Mathlib.Logic.Function.Basic

/-!
# `HashBlobArchive`

A writable archive: records are reserved under its lock, and are written to its file without it.
-/

namespace EncryptedDedup.SDFS.HashBlobArchive

/-- What an archive is set up with. Compression and encryption are library code. -/
structure Archive where
  /-- `VERSION`, from `getMetaDataVersion`. -/
  version : Nat
  /-- `isLocalData`: the file is written where it is read later. -/
  localData : Bool
  blocksz : Nat
  /-- `getWMaxSz` of the map. -/
  wMaxSz : Nat
  hashLength : Nat
  iv : Bytes
  compress : Bool
  chunkStoreEncryptionEnabled : Bool
  compressLz4 : Bytes → Bytes
  decompressLz4 : Bytes → Int → Option Bytes
  encryptCBC : Bytes → Bytes
  decryptCBC : Bytes → Option Bytes

variable (a : Archive)

def Archive.offset : Nat := if a.version = 0 then 0 else 1024

def Archive.header : Bytes := if a.version = 0 then [] else resize a.offset (toBE32 a.version ++ a.iv)

def Archive.encode (chunk : Bytes) : Bytes :=
  let nz : Int := if a.compress then chunk.length else -1
  let bf := toBE32 nz ++ if a.compress then a.compressLz4 chunk else chunk
  if a.chunkStoreEncryptionEnabled then a.encryptCBC bf else bf

/-- Nothing is returned if the bytes are no chunk. -/
def Archive.decode (ub : Bytes) : Option Bytes := do
  let ub ← if a.chunkStoreEncryptionEnabled then a.decryptCBC ub else some ub
  let (cpz, bf) ← (ByteBuffer.wrap ub).getInt
  let cp := slice bf.array bf.position bf.remaining
  if 0 < cpz then a.decompressLz4 cp cpz else some cp

inductive PutError where
  | archiveFull
  | readOnlyArchive
  | hashExists
  | io
  deriving DecidableEq

/-- What the map of the archive does when an entry is put. -/
inductive MapAnswer where
  | works
  /-- `IllegalStateException`: there is no free slot. -/
  | illegalState
  /-- `MapClosedException`. -/
  | closed
  | fails
  deriving DecidableEq

structure Found where
  /-- The upload lock is taken. -/
  uploading : Bool
  /-- `wMaps.get` throws. -/
  noMap : Bool
  /-- `wOpenFiles.get` throws. -/
  noFile : Bool
  map : MapAnswer

structure Reserved where
  hash : Bytes
  chunk : Bytes
  /-- The chunk as it is stored. -/
  stored : Bytes
  cp : Int
  deriving DecidableEq

structure State where
  writeable : Bool
  np : Int
  map : Bytes → Option Int
  currentSize : Nat
  file : Int → Option UInt8

def State.new : State := ⟨true, a.offset, fun _ => none, 0, byteAt a.header⟩

def Reserved.bytes (r : Reserved) : Bytes := toBE32 r.hash.length ++ r.hash ++ toBE32 r.stored.length ++ r.stored

/-- The entry of a record in the map. -/
def entryOf (hash stored : Bytes) (cp : Int) : Int :=
  let pos := int (int cp + 4 + hash.length)
  if a.version = 0 then pos else ofBE64 (toBE32 pos ++ toBE32 stored.length)

/-- `putChunk` up to the end of its locked section. -/
def reserve (s : State) (hash chunk : Bytes) (found : Found) : State × Except PutError Reserved :=
  if found.uploading then (s, .error .archiveFull)
  else
    let stored := a.encode chunk
    if s.writeable = false then (s, .error .readOnlyArchive)
    else if a.blocksz ≤ s.np then ({ s with writeable := false }, .error .archiveFull)
    else if found.noMap then (s, .error .io)
    else if a.wMaxSz ≤ s.currentSize then ({ s with writeable := false }, .error .archiveFull)
    else if found.noFile then (s, .error .io)
    else
      let cp := s.np
      let s := { s with np := cp + 4 + hash.length + 4 + stored.length }
      match found.map with
      | .illegalState => ({ s with np := cp, writeable := false }, .error .archiveFull)
      | .closed => ({ s with np := cp, writeable := false }, .error .archiveFull)
      | .fails => ({ s with np := cp }, .error .io)
      | .works =>
        if (s.map hash).isSome then ({ s with np := cp }, .error .hashExists)
        else
          let map := Function.update s.map hash (some (entryOf a hash stored cp))
          ({ s with map := map, currentSize := s.currentSize + 1 }, .ok ⟨hash, chunk, stored, cp⟩)

/-- The write at the end of `putChunk`, of the first `n` bytes at least if it fails. -/
def writeOut (s : State) (r : Reserved) (n : Nat) : State := { s with file := written s.file ⟨r.bytes.take n, r.cp⟩ }

/-- `ch.read` into an array of zeros. -/
def readAt (file : Int → Option UInt8) (pos : Int) (n : Nat) : Bytes :=
  (List.range n).map fun k : Nat => (file (pos + k)).getD 0

/-- Nothing is returned where `getChunk` returns `null` or throws. An archive that is not uploaded cannot be
downloaded when its data has no length. -/
def getChunk (s : State) (hash : Bytes) : Option Bytes := do
  let pos ← s.map hash
  if pos = -1 then none
  else if a.version = 0 then
    let nlen := ofBE32 (readAt s.file pos 4)
    if nlen ≤ 0 then none else a.decode (readAt s.file (pos + 4) nlen.toNat)
  else
    let h := toBE64 pos
    let npos := ofBE32 (slice h 0 4)
    let nlen := ofBE32 (slice h 4 4)
    if nlen ≤ 0 then none
    -- `openFiles` opens the file where it is after its upload.
    else if a.localData = false then none
    else a.decode (readAt s.file (npos + 4) nlen.toNat)

/-! ### Concurrent calls -/

structure Calls where
  archive : State
  /-- The records that are still to be written. -/
  waiting : List Reserved
  /-- The records of the calls that have returned. -/
  returned : List Reserved

inductive Event where
  | reserve (hash chunk : Bytes) (found : Found)
  | write (r : Reserved)
  /-- Some bytes may have been written. -/
  | writeFails (r : Reserved) (n : Nat)

def Calls.new : Calls := ⟨.new a, [], []⟩

def step (s : Calls) : Event → Calls
  | .reserve hash chunk found =>
    match reserve a s.archive hash chunk found with
    | (archive, .ok r) => { s with archive := archive, waiting := r :: s.waiting }
    | (archive, .error _) => { s with archive := archive }
  | .write r => ⟨writeOut s.archive r r.bytes.length, s.waiting.erase r, r :: s.returned⟩
  | .writeFails r n => ⟨writeOut s.archive r n, s.waiting.erase r, s.returned⟩

end EncryptedDedup.SDFS.HashBlobArchive
