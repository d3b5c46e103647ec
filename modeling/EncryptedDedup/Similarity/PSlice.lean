import EncryptedDedup.Similarity.ReadHashes
import EncryptedDedup.Lib.OrderedMap

/-!
# `pslice`

Cuts the plaintext trace into segments and groups them by their minimum fingerprint.
-/

namespace EncryptedDedup.PSlice
open Similarity (Node)

/-- The databases and counters. `pq` is the priority queue of at most `K_MINHASH` = 1 chunks. -/
structure State where
  pq : Option Node
  segDb : OrderedMap Bytes Bytes
  sliceDb : OrderedMap Fp Bytes
  chunkSize : OrderedMap Fp Bytes
  segCount : Nat
  sliceCount : Nat

/-- `init_dbs` on a fresh directory. -/
def State.init : State := ⟨none, .empty, .empty, .empty, 0, 0⟩

/-- The queue keeps the chunk with the least fingerprint. -/
def push (entry : Node) (s : State) : State :=
  match s.pq with
  | none => { s with pq := some entry }
  | some max => if entry.key < max.key then { s with pq := some entry } else s

/-- The loop over the queue of a segment: its chunk sizes are stored, and its fingerprints are put
together. -/
def segmentValue (sq : List Node) : Bytes := (sq.map fun now => now.key.bytes).flatten

def putSizes (chunkSize : OrderedMap Fp Bytes) (sq : List Node) : OrderedMap Fp Bytes :=
  chunkSize.putAll (sq.map fun now => (now.key, u64 now.size))

/-- `rand() % K_MINHASH` is 0, so nothing is popped. The top of an empty queue is undefined. -/
def processSeg (sq : List Node) (s : State) : Option State :=
  s.pq.map fun core =>
    let segId := u64 s.segCount
    let s := { s with
      pq := none
      chunkSize := putSizes s.chunkSize sq
      segDb := s.segDb.put segId (segmentValue sq)
      segCount := s.segCount + 1 }
    match s.sliceDb.get core.key with
    | none => { s with sliceDb := s.sliceDb.put core.key segId, sliceCount := s.sliceCount + 1 }
    | some sliceValue => { s with sliceDb := s.sliceDb.put core.key (sliceValue ++ segId) }

def program : Similarity.Program State := ⟨push, processSeg⟩

def readHashes (s : State) (fp : Bytes) : Option State := Similarity.readHashes program s fp

end EncryptedDedup.PSlice
