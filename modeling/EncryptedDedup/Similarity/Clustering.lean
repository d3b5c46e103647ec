import EncryptedDedup.Similarity.CSlice
import Mathlib.Algebra.Order.Field.Rat

/-!
# `port2cluster` and `port2slice`

The distances of the segments, which are given to the clustering, and the slices that its labels make.
-/

namespace EncryptedDedup.CSlice

abbrev Histogram := OrderedMap Fp Nat

/-- The histogram of a segment with the fingerprints of another. -/
def merge (distI distJ : Histogram) : Histogram := distJ.entries.foldl (fun merge mit => merge.put mit.1 1) distI

/-- `dist_i.size() + seg_j->second.size() - merge.size()`. -/
def shared (distI distJ : Histogram) : Nat :=
  toU64 (distI.entries.length + distJ.entries.length - (merge distI distJ).entries.length)

/-- The distance of two segments, in exact arithmetic; `0.0 / 0.0` is not a number. -/
def distance (distI distJ : Histogram) : Option ℚ :=
  let size := (merge distI distJ).entries.length
  if size = 0 then none else some (1 - shared distI distJ / size)

/-- The entries that are written, by their index in the array, which is in memory: the index does not wrap. -/
abbrev Matrix := OrderedMap Nat (Option ℚ)

def writeDist (segCount : Nat) (segI : Nat × Histogram) (dist : Matrix) (segJ : Nat × Histogram) : Matrix :=
  (dist.put (segI.1 * segCount + segJ.1) (distance segI.2 segJ.2)).put (segJ.1 * segCount + segI.1)
    (distance segI.2 segJ.2)

/-- The inner loop goes from `count_map.find(seg_i->first)` to the end. -/
def writeRow (segCount : Nat) (countMap : OrderedMap Nat Histogram) (dist : Matrix) (segI : Nat × Histogram) : Matrix :=
  (countMap.entries.filter fun segJ => segI.1 ≤ segJ.1).foldl (writeDist segCount segI) dist

def port2cluster (segCount : Nat) (countMap : OrderedMap Nat Histogram) : Matrix :=
  countMap.entries.foldl (writeRow segCount countMap) .empty

/-- `Slice((char *)&cidx[i], sizeof(int))`: the low half of the label. -/
def sliceKey (label : Int) : Bytes := toLE 4 (label % 2 ^ 32).toNat

/-- The segment at the iterator goes to the slice of its label. -/
def putSlice (sliceDb : OrderedMap Bytes Bytes) (seg : Nat) (label : Int) : OrderedMap Bytes Bytes :=
  match sliceDb.get (sliceKey label) with
  | some existing => sliceDb.put (sliceKey label) (existing ++ u64 seg)
  | none => sliceDb.put (sliceKey label) (u64 seg)

/-- `cidx` is what the clustering returns. -/
def port2slice (countMap : OrderedMap Nat Histogram) (cidx : List Int) (sliceDb : OrderedMap Bytes Bytes) :
    OrderedMap Bytes Bytes :=
  (countMap.entries.zip cidx).foldl (fun db e => putSlice db e.1.1 e.2) sliceDb

end EncryptedDedup.CSlice
