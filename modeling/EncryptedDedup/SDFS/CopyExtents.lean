import EncryptedDedup.SDFS.ChunkBytes
import EncryptedDedup.SDFS.MapTruncate

/-!
# `CopyExtents`

`getResult` copies a range of one file to another: extent by extent, it puts references to the stored chunks of the
source into the buffers of the destination. The source keeps the record that it read last.
-/

namespace EncryptedDedup.SDFS

open Program

inductive CopyThrown where
  | fileClosed
  /-- `"timeout occured"`. -/
  | timeoutOccured
  /-- `"write error occured"`. -/
  | writeErrorOccured
  | thrown (e : Thrown)

structure SourceFile where
  bdb : LongByteArrayMap
  length : Int
  closed : Bool
  toOccured : Bool
  errOccured : Bool
  /-- The record that was read last, and its `fpos`. -/
  pck : Option (Int × SparseDataChunk)

structure DestFile (σ : Type) where
  bdb : LongByteArrayMap
  length : Int
  closed : Bool
  reconstructed : Bool
  direct : Bool
  writeBuffers : Int → Option (WritableCacheBuffer σ)

structure CopyFiles (σ : Type) where
  store : σ
  sdf : SourceFile
  ddf : DestFile σ
  written : Int

def Config.chuckPosition (K : Config) (location : Int) : Int := long (long (location.tdiv K.chunkLength) * K.chunkLength)

def SparseDataChunk.new : SparseDataChunk := ⟨0, 0, 0, 0, 0, .empty⟩

/-! ### The source -/

namespace SourceFile

variable (K : Config)

abbrev Method (α : Type) : Type := Program SourceFile CopyThrown α

/-- A closed file is opened. -/
def getChannel : Method Unit := do
  let f ← get
  if f.toOccured then
    modify fun f => { f with toOccured := false }
    throw .timeoutOccured
  else modify fun f => { f with closed := false }

/-- The record at a position is read, and kept. -/
def readRecord (pos : Int) : Method SparseDataChunk := do
  let f ← get
  match LongByteArrayMap.get K f.bdb pos.toNat with
  | .error e => throw (.thrown e)
  | .ok r =>
    let len := if f.length < long (pos + K.chunkLength) then int (f.length - pos) else K.chunkLength
    let pck := { r.getD .new with len := len }
    modify fun f => { f with pck := some (pos, pck) }
    return pck

def getSparseDataChunk (pos : Int) : Method SparseDataChunk := do
  let f ← get
  if f.length < pos then return .new
  else if f.closed then throw .fileClosed
  else if f.toOccured then
    modify fun f => { f with toOccured := false }
    throw .timeoutOccured
  else if f.errOccured then throw .writeErrorOccured
  else
    match f.pck with
    | none => readRecord K pos
    | some (fpos, pck) => if fpos = pos then return pck else readRecord K pos

end SourceFile

/-! ### The destination -/

/-- The buffer of a chunk, from the cache or from its record. -/
def DestFile.buffer {σ : Type} (V : Services σ) (store : σ) (f : DestFile σ) (pos : Int) :
    Except CopyThrown (WritableCacheBuffer σ) :=
  match f.writeBuffers pos with
  | some w => .ok { w with store := store }
  | none =>
    match LongByteArrayMap.get V.config f.bdb pos.toNat with
    | .error e => .error (.thrown e)
    | .ok r =>
      let w := (LongByteArrayMap.marshalWriteBuffer V store f.direct r).open_
      .ok { w with reconstructed := w.reconstructed || f.reconstructed }

namespace CopyFiles

variable {σ : Type} (V : Services σ)

abbrev Method (σ α : Type) : Type := Program (CopyFiles σ) CopyThrown α

def onSource {α : Type} (p : SourceFile.Method α) : Method σ α := fun f =>
  match p f.sdf with
  | .finished (sdf, r) => .finished ({ f with sdf := sdf }, r)
  | .undefined => .undefined
  | .running => .running

def buffer (f : CopyFiles σ) (pos : Int) : Except CopyThrown (WritableCacheBuffer σ) := f.ddf.buffer V f.store pos

/-- The buffer is in the cache, and the store is as it has left it. -/
def setBuffer (f : CopyFiles σ) (pos : Int) (w : WritableCacheBuffer σ) : CopyFiles σ :=
  { f with
    store := w.store
    ddf := { f.ddf with writeBuffers := Function.update f.ddf.writeBuffers pos (some w) } }

def onBuffer (pos : Int) (p : WritableCacheBuffer.Method σ Unit) : Method σ Unit := fun f =>
  match buffer V f pos with
  | .error e => .finished (f, .error e)
  | .ok w =>
    match p w with
    | .finished (w, r) => .finished (f.setBuffer pos w, r.mapError .thrown)
    | .undefined => .undefined
    | .running => .running

def getWriteBuffer (pos : Int) : Method σ Unit := do
  let f ← get
  if f.ddf.closed then throw .fileClosed
  else onBuffer V (V.config.chuckPosition pos) (pure ())

/-! ### The copy -/

/-- The extent from the source, cut at the end of the request and at the end of the chunk. -/
def cutExtent (K : Config) (p : HashLocPair) (rem pos : Int) : HashLocPair :=
  let nlen := if rem < p.nlen then int rem else p.nlen
  { p with pos := pos, nlen := if K.chunkLength < int (pos + nlen) then int (K.chunkLength - pos) else nlen }

/-- The `try` block of a turn. -/
def copyTurn (sstart len dstart : Int) : Method σ Unit := do
  let f ← get
  let sstart := long (f.written + sstart)
  let dstart := long (f.written + dstart)
  let spos := V.config.chuckPosition sstart
  let dpos := V.config.chuckPosition dstart
  onSource SourceFile.getChannel
  let sdc ← onSource (SourceFile.getSparseDataChunk V.config spos)
  getWriteBuffer V dpos
  onBuffer V dpos (WritableCacheBuffer.writeAccelBuffer V)
  match sdc.ar.getWL (int (sstart - spos)) with
  | .error e => throw (.thrown e)
  | .ok p =>
    let p := cutExtent V.config p (long (len - f.written)) (int (dstart - dpos))
    onBuffer V dpos (WritableCacheBuffer.copyExtent V p)
    modify fun f => { f with written := long (f.written + p.nlen) }

/-- The loops of `getResult`; a file that is closed is tried again. -/
def copyLoop (sstart len dstart : Int) : Nat → Method σ Unit
  | 0 => fun f => if f.written < len then .running else .finished (f, .ok ())
  | turns + 1 => do
    let f ← get
    if f.written < len then
      (copyTurn V sstart len dstart).handle fun
        | .fileClosed => pure ()
        | e => throw e
      copyLoop sstart len dstart turns
    else pure ()

/-- The destination is as long as what is written to it. -/
def setLength (dstart : Int) : Method σ Unit :=
  modify fun f =>
    if f.ddf.length < long (f.written + dstart) then { f with ddf := { f.ddf with length := long (f.written + dstart) } }
    else f

/-- It gives how much is written. -/
def getResult (turns : Nat) (sstart len dstart : Int) : Method σ Int := do
  modify fun f => { f with written := 0, ddf := { f.ddf with reconstructed := true } }
  let f ← get
  (copyLoop V sstart (if f.sdf.length < len then f.sdf.length else len) dstart turns).handle fun e => do
    setLength dstart
    throw e
  setLength dstart
  let f ← get
  return f.written

end CopyFiles

end EncryptedDedup.SDFS
