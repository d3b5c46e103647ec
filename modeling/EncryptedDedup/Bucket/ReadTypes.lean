import EncryptedDedup.Bucket.TypeList
import EncryptedDedup.Lib.OrderedMap

/-!
# `readInChunkToDBsFileType`

The typed reader: the frequency database counts a chunk under its type; the size database is keyed
by the number of cipher blocks.
-/

namespace EncryptedDedup.ReadTypes
open TypeList

structure State where
  fcDb : OrderedMap Bytes Bytes
  sfDb : OrderedMap Bytes Bytes
  tDb : OrderedMap Bytes Bytes
  tpDb : OrderedMap Bytes Bytes
  totalLogicChunkNumber : Nat
  reader : Reader

/-- The count is returned as an `int`. -/
def insertFCDB (fcDb : OrderedMap Bytes Bytes) (key : Bytes) : OrderedMap Bytes Bytes × Int :=
  match fcDb.get key with
  | none => (fcDb.put key (chars ['1']), 1)
  | some exs =>
    let count := (toU64 (atoi exs) + 1) % 2 ^ 64
    (fcDb.put key (decimal count), Int.bmod count (2 ^ 32))

def insertTypeDB (tDb : OrderedMap Bytes Bytes) (typeName : Bytes) (chunkNum : Nat) : OrderedMap Bytes Bytes :=
  match tDb.get typeName with
  | none => tDb.put typeName (decimal chunkNum)
  | some exs => tDb.put typeName (decimal ((toU64 (atoi exs) + chunkNum) % 2 ^ 64))

def insertTypeDBPair (tpDb : OrderedMap Bytes Bytes) (typeName typeHash : Bytes) : OrderedMap Bytes Bytes :=
  match tpDb.get typeName with
  | none => tpDb.put typeName typeHash
  | some _ => tpDb

def insertSFDB (sfDb : OrderedMap Bytes Bytes) (size key : Bytes) : Except Stop (OrderedMap Bytes Bytes) :=
  match sfDb.get size with
  | none => .ok (sfDb.put size key)
  | some exs =>
    let insertKey := exs ++ key
    if insertKey.length % 6 ≠ 0 then .error .insertKeyError
    else .ok (sfDb.put size insertKey)

/-- The `double` nearest to a 64-bit number, halves to even; it is always an integer. -/
def toDouble (n : Nat) : Nat :=
  let ulp := 2 ^ (n.log2 - 52)
  let low := n / ulp
  if 2 * (n % ulp) < ulp then low * ulp
  else if ulp < 2 * (n % ulp) then (low + 1) * ulp
  else (low + low % 2) * ulp

/-- `ceil((double)size/16)`. -/
def bucketSize (size : Nat) : Nat := (toDouble size + 15) / 16

/-- The chunk of a line: its fingerprint, and the name of its bucket. -/
def chunkOf (line : Bytes) : Option (Fp × Bytes) :=
  (readChunk line).2.map fun item => ((readChunk line).1, decimal (bucketSize (toU64 (atoi item))))

def insertChunk (s : State) (typeHashStr : Bytes) (chunkHash : Fp) (sizeStr : Bytes) : Except Stop State :=
  let (fcDb, count) := insertFCDB s.fcDb (chunkHash.bytes ++ typeHashStr)
  if count = 1 then do
    let sfDb ← insertSFDB s.sfDb sizeStr chunkHash.bytes
    .ok { s with fcDb := fcDb, sfDb := sfDb }
  else .ok { s with fcDb := fcDb }

/-- One turn of the loop over the chunks of a file. -/
def readLine (typeHashStr : Bytes) (s : State) : Except Stop State :=
  let buffer := s.reader.buffer
  let s := { s with reader := s.reader.next, totalLogicChunkNumber := s.totalLogicChunkNumber + 1 }
  match chunkOf buffer with
  | none => .error .nullSize
  | some (chunkHash, sizeStr) => insertChunk s typeHashStr chunkHash sizeStr

def readLines (typeHashStr : Bytes) : Nat → State → Except Stop State
  | 0, s => .ok s
  | n + 1, s => do
    let s ← readLine typeHashStr s
    readLines typeHashStr n s

/-- One turn of the loop over the files; `md5` gives the first six bytes of the MD5 digest. -/
def readFile (md5 : Bytes → Fp) (s : State) (file : Bytes × Nat) : Except Stop State :=
  let (itemN, chunkNumber) := file
  let typeHashStr := (md5 itemN).bytes
  readLines typeHashStr chunkNumber
    { s with
      tDb := insertTypeDB s.tDb itemN chunkNumber
      tpDb := insertTypeDBPair s.tpDb itemN typeHashStr }

def State.start (fp : Bytes) : State := ⟨.empty, .empty, .empty, .empty, 0, .start fp⟩

def readInChunks (md5 : Bytes → Fp) (fp typeFp : Bytes) : Except Stop State :=
  readFiles (readFile md5) [] (bufferLines 256 typeFp) (.start fp)

end EncryptedDedup.ReadTypes
