import EncryptedDedup.Lib.Program
import EncryptedDedup.SDFS.SparseDataChunk

/-!
# `WritableCacheBuffer`

The buffer of a chunk of a file. The bytes of the chunk are in the stored chunks its extents refer to, in
the array `bar`, in what `buf` wraps, or in a run of writes that waits in the accelerator.
-/

namespace EncryptedDedup.SDFS

/-- A chunk that the hash engine cuts from its input. -/
structure Finger where
  chunk : Bytes
  hash : Bytes
  len : Int

structure InsertRecord where
  inserted : Bool
  hashlocs : Bytes

/-- What a buffer uses. The store is in a state of `σ`. -/
structure Services (σ : Type) where
  config : Config
  getHash : Bytes → Bytes
  getChunks : Bytes → List Finger
  writeChunk : σ → Bytes → Bytes → Option (σ × InsertRecord)
  fetchChunk : σ → Bytes → Bytes → Bool → Option Bytes
  /-- A loop that has not ended after so many turns is given up. -/
  turns : Nat
  /-- So many calls of `writeAccelBuffer` can be nested in a first one. -/
  stack : Nat

inductive Wrapped where
  | bar
  /-- The array of a caller. -/
  | given (b : Bytes)

structure WritableCacheBuffer (σ : Type) where
  store : σ
  ar : Fingers
  /-- The tree of the copy `_ar`. -/
  arCopy : Option (OrderedMap Int Nat)
  buf : Option Wrapped
  bar : Option Bytes
  dirty : Bool
  newChunk : Bool
  reconstructed : Bool
  hlAdded : Bool
  direct : Bool
  closed : Bool
  flushing : Bool
  prevDoop : Int
  bytesWritten : Int
  accelBuffer : Option Bytes
  accelBuffPos : Int
  accelBuffEp : Int
  /-- The mark `errOccured` of the file. -/
  errOccured : Bool

/-- `Longs.fromByteArray(hashloc) != 0`. -/
def HashLocPair.located (h : HashLocPair) : Bool := ofLE (h.hashloc.take 8).reverse ≠ 0

namespace Services

variable {σ : Type} (V : Services σ)

def blankBlock : Bytes := List.replicate (V.config.minLen + 1) 0

def bk : Bytes := V.getHash V.blankBlock

/-- The chunk of an extent; the blank block is not fetched. -/
def chunkOf (store : σ) (direct : Bool) (h : HashLocPair) : Option Bytes :=
  if h.hash = V.bk then some V.blankBlock else V.fetchChunk store h.hash h.hashloc direct

/-- `FingerPersister.run`: a chunk that is not written does not stop the others. -/
def persist : σ → List Finger → σ × Option (List (Finger × InsertRecord))
  | s, [] => (s, some [])
  | s, f :: fs =>
    match V.writeChunk s f.hash f.chunk with
    | none => ((persist s fs).1, none)
    | some (s, hl) => ((persist s fs).1, (persist s fs).2.map fun written => (f, hl) :: written)

end Services

namespace WritableCacheBuffer

variable {σ : Type} (V : Services σ)

abbrev Method (σ α : Type) : Type := Program (WritableCacheBuffer σ) Thrown α

open Program

/-! ### Constructors -/

/-- `WritableCacheBuffer(long, int, SparseDedupFile, TreeMap, boolean)`. -/
def ofFile (store : σ) (ar : Fingers) (reconstructed direct : Bool) : WritableCacheBuffer σ where
  store := store
  ar := ar
  arCopy := none
  buf := some .bar
  bar := some (List.replicate V.config.chunkLength.toNat 0)
  dirty := false
  newChunk := true
  reconstructed := reconstructed
  hlAdded := false
  direct := direct
  closed := true
  flushing := false
  prevDoop := 0
  bytesWritten := 0
  accelBuffer := none
  accelBuffPos := 0
  accelBuffEp := 0
  errOccured := false

/-- `WritableCacheBuffer(DedupChunkInterface, DedupFile)`. -/
def ofDedupChunk (store : σ) (ar : Fingers) (newChunk : Bool) (prevDoop : Int) (reconstructed direct : Bool) :
    WritableCacheBuffer σ :=
  { ofFile V store ar reconstructed direct with buf := none, bar := none, newChunk := newChunk, prevDoop := prevDoop }

def open_ (w : WritableCacheBuffer σ) : WritableCacheBuffer σ := { w with closed := false, flushing := false }

/-! ### Reading the extents into the array -/

/-- The extents up to the first one without a location. -/
def shards (ar : Fingers) : List HashLocPair := ar.values.takeWhile HashLocPair.located

/-- Put the chunks of the extents where they belong. -/
def layOut : ByteBuffer → List (HashLocPair × Bytes) → Option ByteBuffer
  | buf, [] => some buf
  | buf, (sh, ck) :: rest =>
    if sh.pos = -1 then (buf.put ck).bind fun buf => layOut buf rest
    else
      (buf.seek sh.pos).bind fun buf =>
        (buf.putPart ck sh.offset (if ck.length < sh.nlen then ck.length else sh.nlen)).bind fun buf => layOut buf rest

/-- A turn of the loop of `initBuffer`. -/
def readExtents : Method σ Unit := do
  modify fun w => { w with hlAdded := false }
  let w ← get
  if 1 < V.config.maxHashCluster then
    modify fun w => { w with bar := some (List.replicate V.config.chunkLength.toNat 0), buf := some .bar }
    match (shards w.ar).mapM (V.chunkOf w.store w.direct) with
    | none =>
      modify fun w => { w with buf := none }
      throw .ioException
    | some cks =>
      match layOut (.allocate V.config.chunkLength.toNat) ((shards w.ar).zip cks) with
      | none =>
        modify fun w => { w with buf := none }
        throw .ioException
      | some buf => modify fun w => { w with bar := some buf.array }
  else
    match w.ar.entry 0 with
    | none => throw .nullPointer
    | some h =>
      match V.chunkOf w.store w.direct h with
      | none => throw .ioException
      | some b => modify fun w => { w with buf := some (.given b) }

/-- `initBuffer` with the call of `writeAccelBuffer` that it starts with. -/
def initBufferAfter (writeAccelBuffer : Method σ Unit) : Method σ Unit := do
  writeAccelBuffer
  let w ← get
  if w.buf.isNone then readExtents V else pure ()

/-! ### The accelerator -/

def insertHashLocPair (p : HashLocPair) : Method σ Unit := fun w =>
  match w.ar.insertHashLocPair V.config.chunkLength V.turns p with
  | .finished (ar, none) => .finished ({ w with ar := ar }, .ok ())
  | .finished (ar, some e) => .finished ({ w with ar := ar }, .error e)
  | .undefined => .undefined
  | .running => .running

/-- The extent of a chunk that is written at `ep`. -/
def extentOf (chunkLength ep : Int) (f : Finger) (hl : InsertRecord) : HashLocPair where
  hash := f.hash
  hashloc := hl.hashlocs
  len := f.len
  pos := ep
  offset := 0
  nlen := if int (ep + f.len) ≤ chunkLength then f.len else int (chunkLength - ep)
  dup := false
  inserted := true

/-- The loop over the fingers; `ep` is where the next one goes. -/
def insertFingers (ep : Int) : List (Finger × InsertRecord) → Method σ Unit
  | [] => pure ()
  | (f, hl) :: rest => do
    modify fun w => { w with prevDoop := int (w.prevDoop + if hl.inserted then 0 else f.len) }
    insertHashLocPair V (extentOf V.config.chunkLength ep f hl)
    insertFingers (int (ep + f.len)) rest

/-- With too many extents the chunk is read into the array. -/
def countExtents (initBuffer : Method σ Unit) : Method σ Unit := do
  let w ← get
  if V.config.maxElementsPerAr ≤ w.ar.size then
    initBuffer
    modify fun w => { w with dirty := true }
  else modify fun w => { w with hlAdded := true }

/-- The `try` block of `writeAccelBuffer`, with the `initBuffer` it calls. -/
def writeRun (initBuffer : Method σ Unit) (opos : Int) (b : Bytes) : Method σ Unit := do
  let w ← get
  modify fun w => { w with store := (V.persist w.store (V.getChunks b)).1 }
  match (V.persist w.store (V.getChunks b)).2 with
  | none =>
    modify fun w => { w with buf := none }
    throw .ioException
  | some fs =>
    insertFingers V opos fs
    countExtents V initBuffer
    modify fun w => { w with accelBuffer := none }

/-- The number is how many more calls can be nested. -/
def writeAccelBufferIn : Nat → Method σ Unit
  | 0 => throw .stackOverflow
  | stack + 1 => do
    let w ← get
    match w.accelBuffer with
    | none => pure ()
    | some b =>
      (writeRun V (initBufferAfter V (writeAccelBufferIn stack)) w.accelBuffPos b).handle fun _ => do
        modify fun w => { w with errOccured := true }
        throw .ioException

def writeAccelBuffer : Method σ Unit := writeAccelBufferIn V (V.stack + 1)

def initBuffer : Method σ Unit := initBufferAfter V (writeAccelBuffer V)

/-- A run of writes begins. -/
def startRun (b : Bytes) (pos : Int) : Method σ Unit :=
  modify fun w => { w with accelBuffPos := pos, accelBuffEp := int (pos + b.length), accelBuffer := some b }

def wm (b : Bytes) (pos : Int) : Method σ Unit := do
  modify fun w => { w with reconstructed := true }
  let w ← get
  match w.accelBuffer with
  | none => startRun b pos
  | some r =>
    if w.accelBuffEp = pos then
      -- The end is counted from the start of the run.
      modify fun w => { w with accelBuffer := some (r ++ b), accelBuffEp := int (w.accelBuffPos + b.length) }
    else
      writeAccelBuffer V
      startRun b pos

/-! ### Writing -/

def writeBlock (b : Bytes) (pos : Int) : Method σ Unit := do
  initBuffer V
  let w ← get
  match w.bar with
  | none => throw .nullPointer
  | some a =>
    if 0 ≤ pos ∧ pos + b.length ≤ a.length then
      modify fun w => { w with bar := some (overwrite a pos.toNat b), hlAdded := false, dirty := true }
    else throw .indexOutOfBounds

/-- The three ways of `write`. -/
def writeBytes (b : Bytes) (pos : Int) : Method σ Unit := do
  let w ← get
  if pos = 0 ∧ b.length = V.config.chunkLength then modify fun w => { w with buf := some (.given b) }
  else if w.buf.isNone ∧ w.reconstructed ∧ 1 < V.config.maxHashCluster then wm V b pos
  else writeBlock V b pos

def write (b : Bytes) (pos : Int) : Method σ Unit := do
  let w ← get
  if w.closed ∨ w.flushing then throw .bufferClosed
  else
    modify fun w => { w with dirty := true }
    writeBytes V b pos
    modify fun w => { w with bytesWritten := int (w.bytesWritten + b.length) }

def part (h : HashLocPair) (b : Bytes) : Except Thrown Bytes :=
  if h.nlen < 0 then .error .negativeArraySize
  else
    match (ByteBuffer.wrap b).seek h.offset with
    | none => .error .illegalArgument
    | some bf =>
      match bf.get h.nlen.toNat with
      | none => .error .bufferUnderflow
      | some (z, _) => .ok z

/-- `copyExtent` into the array. -/
def copyBytes (p : HashLocPair) : Method σ Unit := do
  let w ← get
  match V.chunkOf w.store w.direct p with
  | none => throw .ioException
  | some b =>
    match part p b with
    | .error e => throw e
    | .ok z =>
      writeBlock V z p.pos
      modify fun w => { w with reconstructed := false, hlAdded := false }

/-- The `try` block of `copyExtent`. -/
def insertReference (p : HashLocPair) : Method σ Unit := do
  modify fun w => { w with reconstructed := true, hlAdded := true }
  insertHashLocPair V p

/-- `copyExtent` into the extents. -/
def copyReference (p : HashLocPair) : Method σ Unit :=
  (insertReference V p).handle fun _ => do
    modify fun w => { w with errOccured := true }
    throw .ioException

def copyExtent (p : HashLocPair) : Method σ Unit := do
  let w ← get
  if w.closed ∨ w.flushing then throw .bufferClosed
  else
    modify fun w => { w with buf := if w.dirty then w.buf else none, arCopy := w.arCopy <|> some w.ar.tree }
    let w ← get
    if w.buf.isSome ∨ V.config.maxElementsPerAr ≤ w.ar.size then copyBytes V p else copyReference V p

/-! ### Reading -/

/-- `position(sp)` and `get` on the run. -/
def readRun (run : Bytes) (sp : Int) (len : Nat) : Except Thrown Bytes :=
  match (ByteBuffer.wrap run).seek sp with
  | none => .error .illegalArgument
  | some buf =>
    match buf.get len with
    | none => .error .bufferUnderflow
    | some (b, _) => .ok b

/-- The run has all the bytes, as far as its end is known. -/
def runHas (w : WritableCacheBuffer σ) (startPos len : Int) : Bool :=
  w.accelBuffer.isSome && w.accelBuffPos ≤ startPos && int (startPos + len) ≤ w.accelBuffEp

def readArray (startPos len : Int) : Method σ Bytes := do
  initBuffer V
  let w ← get
  if len < 0 then throw .negativeArraySize
  else
    match w.bar with
    | none => throw .nullPointer
    | some a =>
      if 0 ≤ startPos ∧ startPos + len ≤ a.length then return slice a startPos.toNat len.toNat
      else throw .indexOutOfBounds

def readChunk (startPos len : Int) : Method σ Bytes := do
  let w ← get
  if w.flushing ∨ w.closed then throw .bufferClosed
  else if runHas w startPos len then
    if len < 0 then throw .negativeArraySize
    else match readRun (w.accelBuffer.getD []) (w.accelBuffPos - startPos) len.toNat with
    | .error e => throw e
    | .ok b => return b
  else readArray V startPos len

def floorKey (ar : Fingers) (k : Int) : Option Int := (ar.tree.floorEntry k).map Prod.fst

/-- The loop over the extents; it puts whole chunks. -/
def walk (w : WritableCacheBuffer σ) (ep : Int) : Nat → Int → ByteBuffer → Outcome (Except Thrown ByteBuffer)
  | 0, k, bf => if k < ep then .running else .finished (.ok bf)
  | turns + 1, k, bf =>
    if k < ep then
      match w.ar.entry k with
      | none => .finished (.error .nullPointer)
      | some s =>
        match V.chunkOf w.store w.direct s with
        | none => .finished (.error .ioException)
        | some b =>
          match bf.put (b.take bf.remaining) with
          | none => .finished (.error .bufferOverflow)
          | some bf' =>
            if bf.remaining < b.length then .finished (.ok bf')
            else
              match floorKey w.ar (int (k + b.length + 1)) with
              | none => .finished (.error .nullPointer)
              | some k => walk w ep turns k bf'
    else .finished (.ok bf)

def walked (w : WritableCacheBuffer σ) (ep k : Int) (len : Nat) : Method σ Bytes := fun t =>
  match walk V w ep V.turns k (.allocate len) with
  | .finished (.ok bf) => .finished (t, .ok bf.array)
  | .finished (.error e) => .finished (t, .error e)
  | .undefined => .undefined
  | .running => .running

def getReadChunk (startPos len : Int) : Method σ Bytes := do
  let w ← get
  if w.closed ∨ w.flushing then throw .bufferClosed
  else if w.hlAdded then
    if len < 0 then throw .negativeArraySize
    else
      match floorKey w.ar startPos with
      | none => readChunk V startPos len
      | some k => walked V w (int (startPos + len)) k len.toNat
  else readChunk V startPos len

/-! ### Flushing -/

/-- `flush`, up to the queueing of the buffer. -/
def flush (w : WritableCacheBuffer σ) : WritableCacheBuffer σ :=
  if w.flushing ∨ w.closed then w
  else if w.dirty ∨ w.hlAdded then { w with flushing := true }
  else { w with closed := true }

def array (w : WritableCacheBuffer σ) : Option Bytes :=
  match w.buf with
  | none => none
  | some .bar => w.bar
  | some (.given b) => some b

def getFlushedBuffer : Method σ Bytes := do
  let w ← get
  if w.closed ∨ ¬ w.flushing then throw .bufferClosed
  else
    (if w.buf.isNone then initBuffer V else pure ())
    let w ← get
    match w.array with
    | none => throw .nullPointer
    | some b => return b

end WritableCacheBuffer

end EncryptedDedup.SDFS
