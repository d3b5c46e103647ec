import EncryptedDedup.Bucket.TypeList
import EncryptedDedup.Lib.OrderedMap

/-!
# `readChunksFile`

Counts the chunks of every file of a list on their own. A key is the number of the file, how many
chunks it has and the hash of its type; a value is made of records of a 6-byte fingerprint and an
8-byte count.
-/

namespace EncryptedDedup.ReadChunksFile
open TypeList

def recordSize : Nat := fpSize + 8

structure State where
  fcDb : OrderedMap Bytes Bytes
  totalLogicChunkNumber : Nat
  fileIndex : Nat
  reader : Reader

/-- The search loop: the records with one more in the count of `chunkHash`; none if it has no record. -/
def increment (chunkHash : Bytes) : List Bytes → Option (List Bytes)
  | [] => none
  | key :: rest =>
    if key.take fpSize = chunkHash then
      some ((key.take fpSize ++ u64 (ofLE ((key.drop fpSize).take 8) + 1) ++ key.drop recordSize) :: rest)
    else (increment chunkHash rest).map (key :: ·)

def insertKey (chunkHash : Bytes) : Option Bytes → Bytes
  | none => chunkHash ++ u64 1
  | some exs =>
    match increment chunkHash (cut recordSize exs) with
    | none => exs ++ chunkHash ++ u64 1
    | some records => records.flatten

def insertFCDB (fcDb : OrderedMap Bytes Bytes) (metaStr chunkHash : Bytes) : Except Stop (OrderedMap Bytes Bytes) :=
  let insertKey := insertKey chunkHash (fcDb.get metaStr)
  if insertKey.length % 14 ≠ 0 then .error .insertKeyError
  else .ok (fcDb.put metaStr insertKey)

/-- One turn of the loop over the chunks of a file; the size of a chunk is not looked at. -/
def readLine (metaStr : Bytes) (s : State) : Except Stop State := do
  let chunkHash := (readChunk s.reader.buffer).1
  let fcDb ← insertFCDB s.fcDb metaStr chunkHash.bytes
  .ok { s with fcDb := fcDb, reader := s.reader.next, totalLogicChunkNumber := s.totalLogicChunkNumber + 1 }

def readLines (metaStr : Bytes) : Nat → State → Except Stop State
  | 0, s => .ok s
  | n + 1, s => do
    let s ← readLine metaStr s
    readLines metaStr n s

/-- `indexStr + chunkCountStr + typeHashStr`. -/
def metaKey (fileIndex chunkNumber : Nat) (typeHashStr : Fp) : Bytes :=
  u64 fileIndex ++ u64 chunkNumber ++ typeHashStr.bytes

/-- One turn of the loop over the files; `md5` gives the first six bytes of the MD5 digest. -/
def readFile (md5 : Bytes → Fp) (s : State) (file : Bytes × Nat) : Except Stop State :=
  readLines (metaKey s.fileIndex file.2 (md5 file.1)) file.2 { s with fileIndex := s.fileIndex + 1 }

def readInChunks (md5 : Bytes → Fp) (fp typeFp : Bytes) : Except Stop State :=
  readFiles (readFile md5) [] (bufferLines 256 typeFp) ⟨.empty, 0, 0, .start fp⟩

end EncryptedDedup.ReadChunksFile
