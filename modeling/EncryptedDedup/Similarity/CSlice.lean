import EncryptedDedup.Similarity.PSlice

/-!
# `cslice`

Cuts the ciphertext trace into segments and keeps the histogram of each for the clustering.
-/

namespace EncryptedDedup.CSlice
open Similarity (Node)
open PSlice (segmentValue putSizes)

structure State where
  countMap : OrderedMap Nat (OrderedMap Fp Nat)
  segDb : OrderedMap Bytes Bytes
  chunkSize : OrderedMap Fp Bytes
  segCount : Nat

/-- `init_dbs` on a fresh directory. -/
def State.init : State := ⟨.empty, .empty, .empty, 0⟩

/-- `(*p_map)[chunkHash] += 1`. -/
def count (pMap : OrderedMap Fp Nat) (now : Node) : OrderedMap Fp Nat :=
  pMap.put now.key ((pMap.get now.key).getD 0 + 1)

/-- `map::insert` keeps an entry that is there. -/
def insert (countMap : OrderedMap Nat (OrderedMap Fp Nat)) (seg : Nat) (pMap : OrderedMap Fp Nat) :
    OrderedMap Nat (OrderedMap Fp Nat) :=
  if countMap.contains seg then countMap else countMap.put seg pMap

def processSeg (sq : List Node) (s : State) : Option State :=
  some { s with
    chunkSize := putSizes s.chunkSize sq
    segDb := s.segDb.put (u64 s.segCount) (segmentValue sq)
    countMap := insert s.countMap s.segCount (sq.foldl count .empty)
    segCount := s.segCount + 1 }

def program : Similarity.Program State := ⟨fun _ s => s, processSeg⟩

def readHashes (s : State) (fp : Bytes) : Option State := Similarity.readHashes program s fp

end EncryptedDedup.CSlice
