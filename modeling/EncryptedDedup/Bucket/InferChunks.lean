import EncryptedDedup.Trace
import EncryptedDedup.Lib.OrderedMap
import EncryptedDedup.Lib.PriorityQueue

/-!
# `inferChunks`

Frequency analysis within the buckets of chunks of one size. The queues are global: what a bucket
leaves in them is there for the next one.
-/

namespace EncryptedDedup.InferChunks

structure FC where
  key : Fp
  count : Nat
  deriving DecidableEq

/-- `cmp`: the largest count leaves the queue first. -/
def cmp (a b : FC) : Bool := a.count < b.count

/-- The frequency and the size database of the ciphertext (`c`) and the plaintext (`m`) side. -/
structure Databases where
  cfcDb : OrderedMap Fp Bytes
  csfDb : OrderedMap Bytes Bytes
  mfcDb : OrderedMap Fp Bytes
  msfDb : OrderedMap Bytes Bytes

/-- `Get` of a part of a size bucket; a part that is not a fingerprint is not found. -/
def lookup (fcDb : OrderedMap Fp Bytes) (key : Bytes) : Option Bytes :=
  if key.length = fpSize then fcDb.get (Fp.ofBytes key) else none

variable (P : PriorityQueue FC cmp)

/-- Load a size bucket into a queue. The result is none if `assert(s.ok())` fails. -/
def loadN (fcDb : OrderedMap Fp Bytes) : Nat → Bytes → P.Heap → Option P.Heap
  | _, [], que => some que
  | 0, _, _ => none
  | n + 1, tempFpSet, que => do
    let key := tempFpSet.take fpSize
    let count ← lookup fcDb key
    loadN fcDb n (tempFpSet.drop fpSize) (P.push que ⟨Fp.ofBytes key, toU64 (atoi count)⟩)

def load (fcDb : OrderedMap Fp Bytes) (tempFpSet : Bytes) (que : P.Heap) : Option P.Heap :=
  loadN P fcDb tempFpSet.length tempFpSet que

/-- The queues, the counters and `OUTdb`. The pairs that each bucket compared are kept for the
record, plaintext chunk first. Only `rawInferChunkNumber` can outgrow its 64 bits. -/
structure State where
  cQue : P.Heap
  mQue : P.Heap
  rawInferChunkNumber : Nat
  uniqueInferChunkNumber : Nat
  correctInferChunkNumber : Nat
  bucketNum : Nat
  outDb : OrderedMap Fp Bytes
  buckets : List (Bytes × List (FC × FC))

def State.init : State P := ⟨P.empty, P.empty, 0, 0, 0, 0, .empty, []⟩

variable {P}

/-- Compare two chunks; `md5` is the fingerprint of the encrypted chunk. -/
def State.infer (s : State P) (md5 : Fp → Fp) (m c : FC) : State P :=
  let s := { s with uniqueInferChunkNumber := s.uniqueInferChunkNumber + 1 }
  let s :=
    if md5 m.key = c.key then
      { s with
        rawInferChunkNumber := (s.rawInferChunkNumber + c.count) % 2 ^ 64
        correctInferChunkNumber := s.correctInferChunkNumber + 1
        outDb := s.outDb.put m.key c.key.bytes }
    else s
  { s with mQue := P.pop s.mQue, cQue := P.pop s.cQue }

/-- The first `n` turns of the matching loop, with the pairs they compare. -/
def matchTop (md5 : Fp → Fp) : Nat → State P → Option (State P × List (FC × FC))
  | 0, s => some (s, [])
  | n + 1, s => do
    let m ← P.top s.mQue
    let c ← P.top s.cQue
    let (s, pairs) ← matchTop md5 n (s.infer md5 m c)
    some (s, (m, c) :: pairs)

/-- One turn of the loop over `CSFdb`. -/
def inferBucket (d : Databases) (md5 : Fp → Fp) (threshold : Nat) (s : State P) (e : Bytes × Bytes) :
    Option (State P) :=
  let s := { s with bucketNum := s.bucketNum + 1 }
  match d.msfDb.get e.1 with
  | none => some s
  | some mTempFpSet => do
    let cQue ← load P d.cfcDb e.2 s.cQue
    let mQue ← load P d.mfcDb mTempFpSet s.mQue
    let inferSize := if P.size mQue ≤ P.size cQue then P.size mQue else P.size cQue
    let (s, pairs) ← matchTop md5 (min inferSize threshold) { s with cQue := cQue, mQue := mQue }
    some { s with mQue := P.clear s.mQue, cQue := P.clear s.cQue, buckets := s.buckets ++ [(e.1, pairs)] }

/-- `inferTest` with empty queues and an empty `OUTdb`. -/
def inferTest (P : PriorityQueue FC cmp) (d : Databases) (md5 : Fp → Fp) (threshold : Nat) : Option (State P) :=
  d.csfDb.entries.foldlM (inferBucket d md5 threshold) (State.init P)

end EncryptedDedup.InferChunks
