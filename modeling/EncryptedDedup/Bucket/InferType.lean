import EncryptedDedup.Trace
import EncryptedDedup.Lib.OrderedMap
import EncryptedDedup.Lib.PriorityQueue

/-!
# `inferChunksType`

Frequency analysis within the buckets of one size, among the chunks of one file type. A key of the
frequency databases is a fingerprint followed by the hash of a type. The queues are global.
-/

namespace EncryptedDedup.InferChunksType

structure FC where
  key : Bytes
  count : Nat
  deriving DecidableEq

def cmp (a b : FC) : Bool := a.count < b.count

structure Databases where
  cfcDb : OrderedMap Bytes Bytes
  csfDb : OrderedMap Bytes Bytes
  mfcDb : OrderedMap Bytes Bytes
  msfDb : OrderedMap Bytes Bytes

variable (P : PriorityQueue FC cmp)

/-- One turn of a loading loop. The result is none if the key is not 12 bytes long and the program
exits; a chunk that does not occur under the type is passed over. -/
def loadPart (fcDb : OrderedMap Bytes Bytes) (typeHashStr : Fp) (que : P.Heap) (part : Bytes) : Option P.Heap :=
  let key := part ++ typeHashStr.bytes
  if key.length ≠ 12 then none
  else
    match fcDb.get key with
    | none => some que
    | some count => some (P.push que ⟨key, toU64 (atoi count)⟩)

def load (fcDb : OrderedMap Bytes Bytes) (typeHashStr : Fp) (tempFpSet : Bytes) (que : P.Heap) : Option P.Heap :=
  (cut fpSize tempFpSet).foldlM (loadPart P fcDb typeHashStr) que

/-- The queues, the counters and `OUTdb`, and for the record the pairs that each bucket compared,
plaintext chunk first. -/
structure State where
  cQue : P.Heap
  mQue : P.Heap
  rawInferChunkNumber : Nat
  uniqueInferChunkNumber : Nat
  correctInferChunkNumber : Nat
  outDb : OrderedMap Bytes Bytes
  buckets : List (Bytes × List (FC × FC))

def State.init : State P := ⟨P.empty, P.empty, 0, 0, 0, .empty, []⟩

variable {P}

/-- Compare two chunks; `md5` gives the first six bytes of the MD5 digest of a string. -/
def State.infer (s : State P) (md5 : Bytes → Fp) (m c : FC) : State P :=
  let s := { s with uniqueInferChunkNumber := s.uniqueInferChunkNumber + 1 }
  let calHash := m.key.take fpSize
  let cData := c.key.take fpSize
  let s :=
    if (md5 calHash).bytes = cData then
      { s with
        rawInferChunkNumber := (s.rawInferChunkNumber + c.count) % 2 ^ 64
        correctInferChunkNumber := s.correctInferChunkNumber + 1
        outDb := s.outDb.put calHash cData }
    else s
  { s with mQue := P.pop s.mQue, cQue := P.pop s.cQue }

/-- The first `n` turns of the matching loop, with the pairs they compare. -/
def matchTop (md5 : Bytes → Fp) : Nat → State P → Option (State P × List (FC × FC))
  | 0, s => some (s, [])
  | n + 1, s => do
    let m ← P.top s.mQue
    let c ← P.top s.cQue
    let (s, pairs) ← matchTop md5 n (s.infer md5 m c)
    some (s, (m, c) :: pairs)

/-- One turn of the loop over `CSFdb`. What the matching leaves in a queue stays there. -/
def inferBucket (d : Databases) (md5 : Bytes → Fp) (typeHashStr : Fp) (s : State P) (e : Bytes × Bytes) :
    Option (State P) :=
  match d.msfDb.get e.1 with
  | none => some s
  | some mTempFpSet => do
    let cQue ← load P d.cfcDb typeHashStr e.2 s.cQue
    let mQue ← load P d.mfcDb typeHashStr mTempFpSet s.mQue
    let inferSize := if P.size mQue ≤ P.size cQue then P.size mQue else P.size cQue
    let (s, pairs) ← matchTop md5 inferSize { s with cQue := cQue, mQue := mQue }
    some { s with buckets := s.buckets ++ [(e.1, pairs)] }

/-- The hash of the type that the argument names; none if the argument has no token. -/
def typeHash (md5 : Bytes → Fp) (input : Bytes) : Option Fp :=
  (strtok input (chars [':', '\t', '\n'])).map fun tmp => md5 tmp.1

/-- The first `k` turns of the loop of `inferTest`. -/
def inferTo (P : PriorityQueue FC cmp) (d : Databases) (md5 : Bytes → Fp) (input : Bytes) (k : Nat) :
    Option (State P) := do
  let typeHashStr ← typeHash md5 input
  (d.csfDb.entries.take k).foldlM (inferBucket d md5 typeHashStr) (State.init P)

def inferTest (P : PriorityQueue FC cmp) (d : Databases) (md5 : Bytes → Fp) (input : Bytes) : Option (State P) :=
  inferTo P d md5 input d.csfDb.entries.length

end EncryptedDedup.InferChunksType
