import EncryptedDedup.Lib.ByteBuffer
import EncryptedDedup.SDFS.Fingers

/-!
# `SparseDataChunk`

The record of a chunk in the map of a file, and the bytes it is stored as in the three versions of the map.
-/

namespace EncryptedDedup.SDFS

structure Config where
  chunkLength : Int
  hashLength : Nat
  maxHashCluster : Nat
  minLen : Nat

namespace Config

def freeLength (K : Config) : Nat := (1 + K.hashLength + 1 + 8) * K.maxHashCluster

def v1arrayLength (K : Config) : Nat := 4 + (K.hashLength + 8) * K.maxHashCluster

def maxElementsPerAr (K : Config) : Int := int (K.maxHashCluster * 2)

def bal (K : Config) : Nat := K.hashLength + 8 + 4 + 4 + 4 + 4

end Config

/-- A `null` or a full buffer ends a method with an exception. -/
def orThrow {α : Type} (x : Option α) (e : Thrown) : Except Thrown α :=
  match x with
  | some a => .ok a
  | none => .error e

/-! ### Entries -/

namespace HashLocPair

def checkCorrupt (h : HashLocPair) : Except Thrown Unit :=
  if h.len < 0 ∨ h.pos < 0 ∨ h.offset < 0 ∨ h.nlen < 0 then .error (.dataIsCorrupt h) else .ok ()

def asArray (K : Config) (h : HashLocPair) : Except Thrown Bytes := do
  let bf ← orThrow ((ByteBuffer.allocate K.bal).putAll
    [h.hash, h.hashloc, toBE32 h.len, toBE32 h.pos, toBE32 h.offset, toBE32 h.nlen]) .bufferOverflow
  h.checkCorrupt
  return bf.array

/-- `HashLocPair(byte[])`. -/
def ofArray (K : Config) (b : Bytes) : Except Thrown HashLocPair := do
  let bf := ByteBuffer.wrap b
  let (hash, bf) ← orThrow (bf.get K.hashLength) .bufferUnderflow
  let (hashloc, bf) ← orThrow (bf.get 8) .bufferUnderflow
  let (len, bf) ← orThrow bf.getInt .bufferUnderflow
  let (pos, bf) ← orThrow bf.getInt .bufferUnderflow
  let (offset, bf) ← orThrow bf.getInt .bufferUnderflow
  let (nlen, _) ← orThrow bf.getInt .bufferUnderflow
  let h : HashLocPair := ⟨hash, hashloc, len, pos, offset, nlen, false, false⟩
  h.checkCorrupt
  return h

end HashLocPair

/-! ### Chunks -/

structure SparseDataChunk where
  doop : Int
  prevdoop : Int
  len : Int
  flags : UInt8
  version : UInt8
  ar : Fingers

namespace SparseDataChunk

/-- The loop over the entries in `getBytes`. -/
def putEntries (K : Config) : SparseDataChunk → ByteBuffer → List HashLocPair → SparseDataChunk × Except Thrown ByteBuffer
  | c, buf, [] => (c, .ok buf)
  | c, buf, p :: ps =>
    let c := if p.dup then { c with doop := int (c.doop + p.nlen) } else c
    match p.asArray K with
    | .error e => (c, .error e)
    | .ok b =>
      match buf.put b with
      | none => (c, .error .bufferOverflow)
      | some buf => putEntries K { c with len := int (c.len + p.nlen) } buf ps

def getBytes0 (K : Config) (c : SparseDataChunk) : Except Thrown Bytes := do
  let buf ← orThrow ((ByteBuffer.allocate K.freeLength).put [if 0 < c.doop then 1 else 0]) .bufferOverflow
  let h ← orThrow (c.ar.entry 0) .nullPointer
  let buf ← orThrow (buf.putAll [h.hash, [0], h.hashloc]) .bufferOverflow
  return buf.array

def getBytes1 (K : Config) (c : SparseDataChunk) : Except Thrown Bytes := do
  let buf ← orThrow ((ByteBuffer.allocate K.v1arrayLength).put (toBE32 c.doop)) .bufferOverflow
  let buf ← orThrow (buf.putAll (c.ar.values.map HashLocPair.hash)) .bufferOverflow
  let buf ← orThrow (buf.putAll (c.ar.values.map HashLocPair.hashloc)) .bufferOverflow
  return buf.array

/-- `getBytes` from version 2 on, with a buffer of `capacity` bytes. The chunk counts its bytes again. -/
def putRecord (K : Config) (capacity : Int) (c : SparseDataChunk) : SparseDataChunk × Except Thrown Bytes :=
  if capacity < 0 then (c, .error .negativeArraySize)
  else
    let c := { c with prevdoop := c.doop, doop := 0 }
    match (ByteBuffer.allocate capacity.toNat).putAll [[c.flags], toBE32 capacity, toBE32 c.ar.size] with
    | none => (c, .error .bufferOverflow)
    | some buf =>
      if K.maxElementsPerAr < c.ar.size then (c, .error (.arSize c.ar.size K.maxElementsPerAr))
      else
        match putEntries K { c with len := 0 } buf c.ar.values with
        | (c, .error e) => (c, .error e)
        | (c, .ok buf) =>
          match buf.put (toBE32 c.doop) with
          | none => (c, .error .bufferOverflow)
          | some buf => (c, .ok buf.array)

def getBytes2 (K : Config) (c : SparseDataChunk) : SparseDataChunk × Except Thrown Bytes :=
  putRecord K (int (1 + 4 + 4 + 4 + c.ar.size * K.bal)) c

/-- The chunk after the call, and the bytes or what it threw. -/
def getBytes (K : Config) (c : SparseDataChunk) : SparseDataChunk × Except Thrown Bytes :=
  if c.version = 0 then (c, c.getBytes0 K)
  else if c.version = 1 then (c, c.getBytes1 K)
  else c.getBytes2 K

def marshall0 (K : Config) (c : SparseDataChunk) (raw : Bytes) : Except Thrown SparseDataChunk := do
  let buf := ByteBuffer.wrap raw
  let (b, buf) ← orThrow (buf.get 1) .bufferUnderflow
  let (hash, buf) ← orThrow (buf.get K.hashLength) .bufferUnderflow
  let (_, buf) ← orThrow (buf.get 1) .bufferUnderflow
  let (hashloc, _) ← orThrow (buf.get 8) .bufferUnderflow
  let p : HashLocPair := ⟨hash, hashloc, K.chunkLength, 0, 0, K.chunkLength, false, false⟩
  return { c with doop := if b = [0] then 0 else K.chunkLength, ar := Fingers.empty.put 0 p }

/-- The loop over the hashes of a cluster; `z` is the next one. -/
def getCluster (K : Config) (hb hl : ByteBuffer) (z : Nat) (ar : Fingers) : Nat → Except Thrown Fingers
  | 0 => .ok ar
  | left + 1 => do
    let (hl', hl) ← orThrow (hl.get 8) .bufferUnderflow
    let (hash', hb) ← orThrow (hb.get K.hashLength) .bufferUnderflow
    if (hl'.drop 1).head? ≠ some 0 then
      getCluster K hb hl (z + 1) (ar.put z ⟨hash', hl', 0, -1, 0, 0, false, false⟩) left
    else .ok ar

def marshall1 (K : Config) (c : SparseDataChunk) (raw : Bytes) : Except Thrown SparseDataChunk := do
  let buf := ByteBuffer.wrap raw
  let (doop, buf) ← orThrow buf.getInt .bufferUnderflow
  let (hash, buf) ← orThrow (buf.get (K.hashLength * K.maxHashCluster)) .bufferUnderflow
  let (hashlocs, _) ← orThrow (buf.get (8 * K.maxHashCluster)) .bufferUnderflow
  let ar ← getCluster K (ByteBuffer.wrap hash) (ByteBuffer.wrap hashlocs) 0 Fingers.empty K.maxHashCluster
  return { c with doop := doop, ar := ar }

/-- The loop over the entries in `marshall`. -/
def getEntries (K : Config) (c : SparseDataChunk) (buf : ByteBuffer) : Nat → Except Thrown (SparseDataChunk × ByteBuffer)
  | 0 => .ok (c, buf)
  | left + 1 => do
    let (b, buf) ← orThrow (buf.get K.bal) .bufferUnderflow
    let p ← HashLocPair.ofArray K b
    getEntries K { c with ar := c.ar.put p.pos p, len := if c.len < p.ep then p.ep else c.len } buf left

def marshall2 (K : Config) (c : SparseDataChunk) (raw : Bytes) : Except Thrown SparseDataChunk := do
  let buf := ByteBuffer.wrap raw
  let (flags, buf) ← orThrow (buf.get 1) .bufferUnderflow
  let (_, buf) ← orThrow buf.getInt .bufferUnderflow
  let (zlen, buf) ← orThrow buf.getInt .bufferUnderflow
  let (c, buf) ← getEntries K { c with flags := flags.headD 0, ar := Fingers.empty } buf zlen.toNat
  let (doop, _) ← orThrow buf.getInt .bufferUnderflow
  return { c with doop := doop }

def marshall (K : Config) (c : SparseDataChunk) (raw : Bytes) : Except Thrown SparseDataChunk :=
  if c.version = 0 then c.marshall0 K raw
  else if c.version = 1 then c.marshall1 K raw
  else c.marshall2 K raw

/-- `SparseDataChunk(byte[], byte)`. -/
def ofBytes (K : Config) (rawData : Bytes) (version : UInt8) : Except Thrown SparseDataChunk :=
  marshall K ⟨0, 0, 0, 0, version, Fingers.empty⟩ rawData

end SparseDataChunk

end EncryptedDedup.SDFS
