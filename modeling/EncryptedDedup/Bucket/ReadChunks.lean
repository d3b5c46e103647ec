import EncryptedDedup.Trace
import EncryptedDedup.Lib.OrderedMap

/-!
# `readChunksToDBs`

Reads traces into a frequency database and a size database. The frequency database maps a
fingerprint to the decimal text of its count; the size database maps the decimal text of a chunk
size to the fingerprints that first occurred with that size, one after another.
-/

namespace EncryptedDedup.ReadChunks

/-- Why a run ends before its trace does. -/
inductive Stop where
  /-- `insertSFdb` printed "insert key error" and exited. -/
  | insertKeyError
  /-- `atoi` was called with a null pointer: the line has no chunk size. -/
  | nullSize
  deriving DecidableEq

structure State where
  fcDb : OrderedMap Fp Bytes
  sfDb : OrderedMap Bytes Bytes
  totalLogicChunkNumber : Nat
  totalUniqueChunkNumber : Nat

def State.init : State := ⟨.empty, .empty, 0, 0⟩

/-- The count is returned as an `int`. -/
def insertFCdb (fcDb : OrderedMap Fp Bytes) (key : Fp) : OrderedMap Fp Bytes × Int :=
  match fcDb.get key with
  | none => (fcDb.put key (chars ['1']), 1)
  | some exs =>
    let count := (toU64 (atoi exs) + 1) % 2 ^ 64
    (fcDb.put key (decimal count), Int.bmod count (2 ^ 32))

def insertSFdb (sfDb : OrderedMap Bytes Bytes) (size key : Bytes) : Except Stop (OrderedMap Bytes Bytes) :=
  match sfDb.get size with
  | none => .ok (sfDb.put size key)
  | some exs =>
    let insertKey := exs ++ key
    if insertKey.length % 6 ≠ 0 then .error .insertKeyError
    else .ok (sfDb.put size insertKey)

/-- A chunk goes into the frequency database, and into the size database if it is new. -/
def insertChunk (s : State) (chunkHash : Fp) (sizeStr : Bytes) : Except Stop State :=
  let s := { s with totalLogicChunkNumber := s.totalLogicChunkNumber + 1 }
  let (fcDb, count) := insertFCdb s.fcDb chunkHash
  if count = 1 then do
    let sfDb ← insertSFdb s.sfDb sizeStr chunkHash.bytes
    .ok { s with fcDb := fcDb, sfDb := sfDb, totalUniqueChunkNumber := s.totalUniqueChunkNumber + 1 }
  else .ok { s with fcDb := fcDb }

/-- The chunk of a line: its fingerprint, and its size as `to_string` prints it. -/
def chunkOf (line : Bytes) : Option (Fp × Bytes) :=
  (readChunk line).2.map fun item => ((readChunk line).1, decimal (toU64 (atoi item)))

def readLine (s : State) (line : Bytes) : Except Stop State :=
  match chunkOf line with
  | none => .error .nullSize
  | some (chunkHash, sizeStr) => insertChunk s chunkHash sizeStr

/-- The lines that the read loop gets; the first one is skipped as a title. -/
def chunkLines (fp : Bytes) : List Bytes := (bufferLines 256 fp).drop 1

def State.restart (s : State) : State :=
  { s with totalLogicChunkNumber := 0, totalUniqueChunkNumber := 0 }

def readInChunks (s : State) (fp : Bytes) : Except Stop State := (chunkLines fp).foldlM readLine s.restart

/-- The databases after the program was run on each file. -/
def feed (fps : List Bytes) : Except Stop State := fps.foldlM readInChunks .init

/-- The databases after whole files and the first `k` lines of one more. -/
def readTo (fps : List Bytes) (fp : Bytes) (k : Nat) : Except Stop State :=
  (feed fps).bind fun s => ((chunkLines fp).take k).foldlM readLine s.restart

end EncryptedDedup.ReadChunks
