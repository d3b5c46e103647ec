import EncryptedDedup.SDFS.HashLocPair
import EncryptedDedup.Lib.Loop
import EncryptedDedup.Lib.OrderedMap

/-!
# The extents of a chunk

`TreeMap<Integer, HashLocPair>` with the methods of `SparseDataChunk` on it. The map holds references
to objects that an insertion changes in place.
-/

namespace EncryptedDedup.SDFS

structure Fingers where
  tree : OrderedMap Int Nat
  objects : Nat → HashLocPair
  /-- The objects from this number on are not in use. -/
  allocated : Nat

namespace Fingers

/-- `new TreeMap<Integer, HashLocPair>()`. -/
def empty : Fingers := ⟨OrderedMap.empty, fun _ => ⟨[], [], 0, 0, 0, 0, false, false⟩, 0⟩

def entry (ar : Fingers) (k : Int) : Option HashLocPair := (ar.tree.get k).map ar.objects

def values (ar : Fingers) : List HashLocPair := ar.tree.entries.map fun e => ar.objects e.2

def size (ar : Fingers) : Nat := ar.tree.entries.length

def set (ar : Fingers) (r : Nat) (h : HashLocPair) : Fingers :=
  { ar with objects := fun i => if i = r then h else ar.objects i }

def remove (ar : Fingers) (k : Int) : Fingers := { ar with tree := ar.tree.delete k }

def putRef (ar : Fingers) (k : Int) (r : Nat) : Fingers := { ar with tree := ar.tree.put k r }

def put (ar : Fingers) (k : Int) (h : HashLocPair) : Fingers :=
  { (ar.set ar.allocated h).putRef k ar.allocated with allocated := ar.allocated + 1 }

/-- The rest of the extent from `pos` on, as a new object. -/
def getWL (ar : Fingers) (pos : Int) : Except Thrown HashLocPair :=
  match ar.tree.floorEntry pos with
  | none => .error (.positionNotFound pos)
  | some (_, r) =>
    let h := ar.objects r
    if h.pos ≤ pos ∧ pos < h.ep then
      let os := pos - h.pos
      .ok { h.clone with offset := int (h.offset + os), nlen := h.nlen - os, pos := pos }
    else .error (.positionNotFound pos)

/-- What a turn of the loop does to the object `r`. -/
def trim (p : HashLocPair) (ep : Int) (ar : Fingers) (r : Nat) : Fingers :=
  let h := ar.objects r
  if p.pos ≤ h.pos then
    let no := ep - h.pos
    let h' := { h with pos := ep, offset := int (h.offset + no), nlen := h.nlen - no }
    let ar := (ar.set r h').remove h.pos
    if 0 < h'.nlen then ar.putRef ep r else ar
  else
    -- A clone of the part behind `ep` is made, but the object itself is put there.
    let ar := if ep < h.ep then ar.putRef ep r else ar
    ar.set r { h with nlen := p.pos - h.pos }

structure Walk where
  ar : Fingers
  /-- `_ep`. -/
  ep : Int

def insertLoop (p : HashLocPair) (ep : Int) : Loop Walk where
  guard w :=
    match w.ar.tree.floorEntry w.ep with
    | none => false
    | some (_, r) => decide (p.pos ≤ (w.ar.objects r).ep)
  body w := (w.ar.tree.floorEntry w.ep).map fun e =>
    let ar := trim p ep w.ar e.2
    ⟨ar, (ar.objects e.2).pos - 1⟩

/-- The extents after a call, and what it threw. `p` is a new object. -/
def insertHashLocPair (chunkLength : Int) (fuel : Nat) (ar : Fingers) (p : HashLocPair) :
    Outcome (Fingers × Option Thrown) :=
  if chunkLength < p.ep then .finished (ar, some (.overflow p.ep p.pos))
  else ((insertLoop p p.ep).run fuel ⟨ar, p.ep⟩).map fun w => (w.ar.put p.pos p, none)

end Fingers

end EncryptedDedup.SDFS
