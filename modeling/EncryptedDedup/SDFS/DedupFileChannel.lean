import EncryptedDedup.Lib.Chunked
import EncryptedDedup.Lib.Loop
import EncryptedDedup.SDFS.HashLocPair

/-!
# `DedupFileChannel`

`writeFile` and `read` cut a range of the file at the boundaries of its chunks. The write buffers of the
chunks are arrays here, and an exception ends a call without a result. The limit of the caller's buffer is
assumed to be its capacity, so a position in it is valid up to the length of its array.
-/

namespace EncryptedDedup.SDFS

/-- `Main.CHUNK_LENGTH`, an `int`. -/
structure ChunkLength where
  val : Nat
  pos : 0 < val
  lt : val < 2 ^ 31

structure DedupFile (C : ChunkLength) where
  canWrite : Bool
  length : Int
  writeBuffers : Chunked C.val

/-- `SparseDedupFile.getChuckPosition`. -/
def getChuckPosition (C : ChunkLength) (location : Int) : Int := location.tdiv C.val * C.val

namespace DedupFileChannel

variable {C : ChunkLength}

/-- The length of the piece that begins at `startPos`, when so many bytes are left. -/
def pieceLength (C : ChunkLength) (startPos bytesLeft : Int) : Int :=
  if bytesLeft < C.val - startPos then bytesLeft else C.val - startPos

/-- `buf.get(b)` with a new array `b` of `n` bytes; of a buffer that holds fewer bytes the rest of `b`
stays zero. -/
def getOrPad (buf : ByteBuffer) (n : Nat) : Bytes × ByteBuffer :=
  match buf.get n with
  | some r => r
  | none =>
    let rest := slice buf.array buf.position buf.remaining
    (rest ++ List.replicate (n - rest.length) 0, ⟨buf.array, buf.array.length⟩)

/-! ### `writeFile` -/

/-- The variables of the loop; `pieces` are the calls of `WritableCacheBuffer.write` so far. -/
structure Writing (C : ChunkLength) where
  file : DedupFile C
  buf : ByteBuffer
  cp : Int
  bytesLeft : Int
  pieces : List ChunkPiece

def writeBody (s : Writing C) : Option (Writing C) := do
  let filePos := getChuckPosition C s.cp
  let startPos := int (s.cp - filePos)
  let len := pieceLength C startPos s.bytesLeft
  let (b, buf) := getOrPad s.buf len.toNat
  let writeBuffers ← s.file.writeBuffers.put filePos startPos b
  let cp := long (s.cp + len)
  return {
    file := { s.file with writeBuffers, length := if cp > s.file.length then cp else s.file.length }
    buf, cp
    bytesLeft := s.bytesLeft - len
    pieces := s.pieces ++ [⟨filePos, startPos, b⟩] }

def writeLoop (C : ChunkLength) : Loop (Writing C) where
  guard s := 0 < s.bytesLeft
  body := writeBody

/-- The file afterwards, and the pieces that its buffers were given. -/
def writeFile (file : DedupFile C) (buf : ByteBuffer) (len pos offset : Int) :
    Option (DedupFile C × List ChunkPiece) := do
  guard file.canWrite
  let buf ← buf.seek pos
  let s ← ((writeLoop C).run len.toNat ⟨file, buf, offset, len, []⟩).result
  return (s.file, s.pieces)

/-! ### `read` -/

/-- `buf.put(_rb)`, or only what there is room for. -/
def putOrCut (buf : ByteBuffer) (rb : Bytes) : Option ByteBuffer :=
  let nl := buf.remaining
  if nl < rb.length then buf.putPart rb 0 nl else buf.put rb

/-- The variables of the loop; `returned` is set where the loop is left by a return. -/
structure Reading where
  buf : ByteBuffer
  currentLocation : Int
  bytesLeft : Int
  read : Int
  returned : Bool
  pieces : List ChunkPiece

def readBody (file : DedupFile C) (s : Reading) : Option Reading := do
  let filePos := getChuckPosition C s.currentLocation
  let startPos := int (s.currentLocation - filePos)
  let len := pieceLength C startPos s.bytesLeft
  let rb ← file.writeBuffers.get filePos startPos len
  let buf ← putOrCut s.buf rb
  let currentLocation := long (s.currentLocation + len)
  return {
    buf, currentLocation
    bytesLeft := s.bytesLeft - len
    read := s.read + len
    returned := currentLocation = file.length
    pieces := s.pieces ++ [⟨filePos, startPos, rb⟩] }

def readLoop (file : DedupFile C) : Loop Reading where
  guard s := 0 < s.bytesLeft && !s.returned
  body := readBody file

/-- The file and the caller's buffer afterwards, what is returned, and the pieces that were read. -/
def read (blockDev : Bool) (file : DedupFile C) (buf : ByteBuffer) (bufPos siz filePos : Int) :
    Option (DedupFile C × Int × ByteBuffer × List ChunkPiece) :=
  if file.length ≤ filePos ∧ blockDev = false then some (file, -1, buf, []) else do
    let buf ← buf.seek bufPos
    let futureFilePostion := long (siz + filePos)
    let length := if blockDev ∧ futureFilePostion > file.length then futureFilePostion else file.length
    let file := { file with length }
    let bytesLeft := if futureFilePostion > file.length then int (file.length - filePos) else siz
    let s ← ((readLoop file).run bytesLeft.toNat ⟨buf, filePos, bytesLeft, 0, false, []⟩).result
    return (file, s.read, s.buf, s.pieces)

end DedupFileChannel

end EncryptedDedup.SDFS
