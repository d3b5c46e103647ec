import EncryptedDedup.Similarity.ReadHashes
import EncryptedDedup.Lib.Nearest
import EncryptedDedup.Lib.OrderedMap
import EncryptedDedup.Lib.PriorityQueue
import Mathlib.Algebra.Order.Field.Basic
import Mathlib.Data.Prod.Lex

/-!
# `pair`

Pairs the slices of the ciphertext with slices of the plaintext by their ranks and entropies, and the segments
of slices that look the same. Doubles are any ordered field with a logarithm.
-/

namespace EncryptedDedup.Pair

structure SliceNode (K : Type) where
  key : Bytes
  size : Int
  value : Bytes
  sliceEntropy : K
  sliceChunkCount : OrderedMap Fp Nat
  sumSize : Nat
  deriving DecidableEq

structure SegmentNode (K : Type) where
  sumSize : Nat
  id : Bytes
  size : Int
  segmentEntropy : K
  segmentChunkCount : OrderedMap Fp Nat
  deriving DecidableEq

structure Databases where
  pSegDb : OrderedMap Bytes Bytes
  cSegDb : OrderedMap Bytes Bytes
  chunkSize : OrderedMap Fp Bytes

def intMax : Nat := 2 ^ 31 - 1

/-! ### `count_chunk` -/

structure ChunkCount where
  chunks : Nat
  countResult : OrderedMap Fp Nat
  sumSize : Nat

/-- The segments of a slice. The loop takes the words that are whole; below seven bytes its bound wraps, and it
reads past the end. Its `int i` ends behind the last word. -/
def segmentIds (sliceValue : Bytes) : Option (List Bytes) :=
  if sliceValue.length < 7 ∨ intMax < sliceValue.length / 8 * 8 then none
  else some (cut 8 (sliceValue.take (sliceValue.length / 8 * 8)))

/-- `assert(status.ok())` for the size of the chunk, and `chunks++`. -/
def countPart (chunkSize : OrderedMap Fp Bytes) (c : ChunkCount) (part : Bytes) : Option ChunkCount :=
  if part.length = fpSize ∧ c.chunks < intMax then do
    let hash := Fp.ofBytes part
    let exv ← chunkSize.get hash
    some ⟨c.chunks + 1, c.countResult.put hash ((c.countResult.get hash).getD 0 + 1),
      (c.sumSize + ofLE (exv.take 8)) % 2 ^ 64⟩
  else none

/-- The turn for one segment. One that is not found counts as empty; `int j` ends behind the last chunk. -/
def countSegment (segDb : OrderedMap Bytes Bytes) (chunkSize : OrderedMap Fp Bytes) (c : ChunkCount) (id : Bytes) :
    Option ChunkCount :=
  let existingValue := (segDb.get id).getD []
  if intMax < (existingValue.length + fpSize - 1) / fpSize * fpSize then none
  else (cut fpSize existingValue).foldlM (countPart chunkSize) c

def countChunk (segDb : OrderedMap Bytes Bytes) (chunkSize : OrderedMap Fp Bytes) (sliceValue : Bytes) :
    Option ChunkCount := do
  let ids ← segmentIds sliceValue
  ids.foldlM (countSegment segDb chunkSize) ⟨0, .empty, 0⟩

variable {K : Type} [Field K] [LinearOrder K]

/-- `entropy(tp, MIN_ENTROPY)` with `MIN_ENTROPY` 0. -/
def entropy (log : K → K) (tp : OrderedMap Fp Nat) : K :=
  let sum : Nat := tp.entries.foldl (fun sum it => (sum + it.2) % 2 ^ 64) 0
  if sum = 0 then 0
  else tp.entries.foldl (fun ans it =>
    let po : K := it.2 / sum
    if po ≠ 0 then ans + -po * (log po / log 2) else ans) 0

def maximumEntropy : K := 9999999

/-! ### `load_slice` -/

def SliceNode.less (n1 n2 : SliceNode K) : Bool := n1.size < n2.size || (n1.size = n2.size && n1.key < n2.key)

def loadSlice (P : PriorityQueue (SliceNode K) SliceNode.less) (log : K → K) (segDb : OrderedMap Bytes Bytes)
    (chunkSize : OrderedMap Fp Bytes) (sliceDb : OrderedMap Bytes Bytes) : Option P.Heap :=
  sliceDb.entries.foldlM (fun que it => do
    let c ← countChunk segDb chunkSize it.2
    some (P.push que ⟨it.1, c.chunks, it.2, entropy log c.countResult, c.countResult, c.sumSize⟩)) P.empty

/-! ### `pair` -/

/-- A `map<sliceNode, sliceNode>`: what `operator <` compares decides which keys are the same. -/
abbrev Pairing (K : Type) := OrderedMap (Int ×ₗ Bytes) (SliceNode K × SliceNode K)

def SliceNode.order (n : SliceNode K) : Int ×ₗ Bytes := toLex (n.size, n.key)

/-- `insert(make_pair(tar, min))`, which fails if the key is there. -/
def insert (pairing : Pairing K) (tar min : SliceNode K) : Bool × Pairing K :=
  if pairing.contains tar.order then (false, pairing) else (true, pairing.put tar.order (tar, min))

/-- The plaintext slices, the maps and the counters; for the record, how often an insertion failed, and the
ranks of the slices that were paired. -/
structure State (K : Type) where
  oriVec : List (SliceNode K)
  slicePairing : Pairing K
  segmentPairing : Pairing K
  overallChunks : Nat
  overallPairs : Nat
  failed : Nat
  chosen : List (Nat × Nat)

/-- `(int)(pair_counter - r)` turns of the loop that moves `ori_it`. -/
def skip (pairCounter r : Nat) : Nat := (Int.bmod ((pairCounter : Int) - r) (2 ^ 32)).toNat

def range (pairCounter r : Nat) : Nat :=
  if pairCounter < r then (pairCounter + r) % 2 ^ 64 else 2 * r % 2 ^ 64

/-- The ranks that the loop over the plaintext slices visits. -/
def Visited (pairCounter r q : Nat) : Prop := skip pairCounter r ≤ q ∧ q < skip pairCounter r + range pairCounter r

instance instDecidableVisited (pairCounter r q : Nat) : Decidable (Visited pairCounter r q) :=
  inferInstanceAs (Decidable (_ ∧ _))

def candidates (pairCounter r : Nat) (oriVec : List (SliceNode K)) : List (SliceNode K × Nat) :=
  oriVec.zipIdx.filter fun ori => Visited pairCounter r ori.2

def difference (tar ori : SliceNode K) : K :=
  let diff := ori.sliceEntropy - tar.sliceEntropy
  if diff < 0 then -diff else diff

/-- `min_diff`, and where `min_it` is if it was moved. -/
def closest (t : K) (r pairCounter : Nat) (oriVec : List (SliceNode K)) (tar : SliceNode K) :
    K × Option (SliceNode K × Nat) :=
  nearest (fun ori => difference tar ori.1 < t) (fun ori => difference tar ori.1) maximumEntropy
    (candidates pairCounter r oriVec)

/-- `these two slice are totally the same`. -/
def Alike (minDiff : K) (tar min : SliceNode K) : Prop :=
  minDiff < 1 / 10 ^ 6 ∧ min.size = tar.size ∧ tar.sumSize = min.sumSize

instance instDecidableAlike (minDiff : K) (tar min : SliceNode K) : Decidable (Alike minDiff tar min) :=
  inferInstanceAs (Decidable (_ ∧ _ ∧ _))

def State.add (s : State K) (minDiff : K) (tar min : SliceNode K) (p q : Nat) : State K :=
  let s := { s with
    overallChunks := s.overallChunks + tar.sliceChunkCount.entries.length
    overallPairs := s.overallPairs + 1
    chosen := s.chosen ++ [(p, q)]
    oriVec := s.oriVec.set q { min with sliceEntropy := maximumEntropy } }
  if Alike minDiff tar min then
    { s with
      segmentPairing := (insert s.segmentPairing tar min).2
      failed := if (insert s.segmentPairing tar min).1 then s.failed else s.failed + 1 }
  else
    { s with
      slicePairing := (insert s.slicePairing tar min).2
      failed := if (insert s.slicePairing tar min).1 then s.failed else s.failed + 1 }

/-- One turn of the outer loop. `min_it` is not initialised. -/
def pairSlice (t : K) (r : Nat) (s : State K) (tar : SliceNode K × Nat) : Option (State K) :=
  let (minDiff, minIt) := closest t r tar.2 s.oriVec tar.1
  if minDiff < t then minIt.map fun min => s.add minDiff tar.1 min.1 tar.2 min.2 else some s

def State.init (oriVec : List (SliceNode K)) : State K := ⟨oriVec, .empty, .empty, 0, 0, 0, []⟩

/-- The ciphertext slices that are to be paired, with their ranks. -/
def targets (oriVec tarVec : List (SliceNode K)) (u : Nat) : List (SliceNode K × Nat) :=
  tarVec.zipIdx.take (min (min oriVec.length tarVec.length) u)

def pair (P : PriorityQueue (SliceNode K) SliceNode.less) (pSlice cSlice : P.Heap) (u r : Nat) (t : K) :
    Option (State K) :=
  (targets (P.drain pSlice) (P.drain cSlice) u).foldlM (pairSlice t r) (.init (P.drain pSlice))

/-! ### `segment_pair` -/

def SegmentNode.less (n1 n2 : SegmentNode K) : Bool := n1.size < n2.size

def loadSegments (P : PriorityQueue (SegmentNode K) SegmentNode.less) (log : K → K) (segDb : OrderedMap Bytes Bytes)
    (chunkSize : OrderedMap Fp Bytes) (value : Bytes) : Option P.Heap := do
  let ids ← segmentIds value
  ids.foldlM (fun que tmps => do
    let c ← countChunk segDb chunkSize tmps
    some (P.push que ⟨c.sumSize, tmps, c.chunks, entropy log c.countResult, c.countResult⟩)) P.empty

/-- `operator ==`, with `equal` of the fingerprints while both have some. -/
def SegmentNode.same (n1 n2 : SegmentNode K) : Bool :=
  (n1.segmentChunkCount.keys.zip n2.segmentChunkCount.keys).all fun e => e.2 = e.1

/-- The three `int` counters, and the database. -/
structure Counters where
  segmentCount : Nat
  inferSegment : Nat
  segmentInferChunk : Nat
  inferDb : OrderedMap Fp Bytes

def Counters.inferChunk (s : Counters) (cipher : Fp) : Option Counters :=
  match s.inferDb.get cipher with
  | some _ => some s
  | none =>
    if s.segmentInferChunk < intMax then
      some { s with segmentInferChunk := s.segmentInferChunk + 1, inferDb := s.inferDb.put cipher cipher.bytes }
    else none

/-- What is counted when `c` is matched with `p`; none if a counter overflows. -/
def Counters.count (s : Counters) (c p : SegmentNode K) : Option Counters :=
  if intMax ≤ s.segmentCount then none
  else if c.same p then
    if intMax ≤ s.inferSegment then none
    else c.segmentChunkCount.keys.foldlM Counters.inferChunk
      { s with segmentCount := s.segmentCount + 1, inferSegment := s.inferSegment + 1 }
  else some { s with segmentCount := s.segmentCount + 1 }

/-- The plaintext segments of an entry; for the record, the positions that were assigned. -/
structure Segments (K : Type) where
  pv : List (SegmentNode K)
  assigned : List (Nat × Nat)
  counters : Counters

def closestSegment (pv : List (SegmentNode K)) (c : SegmentNode K) : K × Option (SegmentNode K × Nat) :=
  nearest (fun p => c.sumSize = p.1.sumSize) (fun p =>
    let tmpdis := c.segmentEntropy - p.1.segmentEntropy
    if tmpdis < 0 then -tmpdis else tmpdis) maximumEntropy pv.zipIdx

/-- One turn of the loop over the ciphertext segments. -/
def assignSegment (minP : K) (s : Segments K) (c : SegmentNode K × Nat) : Option (Segments K) :=
  let (minDis, minpos) := closestSegment s.pv c.1
  if minDis < minP then do
    let p ← minpos
    let counters ← s.counters.count c.1 p.1
    some ⟨s.pv.set p.2 { p.1 with segmentEntropy := maximumEntropy }, s.assigned ++ [(c.2, p.2)], counters⟩
  else some s

/-- What is done with an entry of `segment_pairing`: its segments in the order of the queues, and which were
assigned to which. -/
structure Entry (K : Type) where
  cv : List (SegmentNode K)
  pv : List (SegmentNode K)
  assigned : List (Nat × Nat)

def pairEntry (P : PriorityQueue (SegmentNode K) SegmentNode.less) (log : K → K) (d : Databases) (minP : K)
    (s : List (Entry K) × Counters) (it : SliceNode K × SliceNode K) : Option (List (Entry K) × Counters) := do
  let cSegment ← loadSegments P log d.cSegDb d.chunkSize it.1.value
  let pSegment ← loadSegments P log d.pSegDb d.chunkSize it.2.value
  let cv := P.drain cSegment
  let pv := P.drain pSegment
  let done ← cv.zipIdx.foldlM (assignSegment minP) ⟨pv, [], s.2⟩
  some (s.1 ++ [⟨cv, pv, done.assigned⟩], done.counters)

def segmentPair (P : PriorityQueue (SegmentNode K) SegmentNode.less) (log : K → K) (d : Databases) (minP : K)
    (segmentPairing : Pairing K) (inferDb : OrderedMap Fp Bytes) : Option (List (Entry K) × Counters) :=
  (segmentPairing.entries.map Prod.snd).foldlM (pairEntry P log d minP) ([], ⟨0, 0, 0, inferDb⟩)

end EncryptedDedup.Pair
