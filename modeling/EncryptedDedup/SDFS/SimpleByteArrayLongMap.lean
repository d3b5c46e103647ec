import EncryptedDedup.Lib.Cursor
import EncryptedDedup.Lib.GrowingFile
import EncryptedDedup.SDFS.SlotFile

/-!
# `SimpleByteArrayLongMap`

The map of an archive from hashes to positions: a hash table in a file, a bit for each slot that this session has
filled, and a copy of what it has put.
-/

namespace EncryptedDedup.SDFS.SimpleByteArrayLongMap
open SlotFile (hashOf)

inductive Thrown where
  | mapClosed
  /-- `IllegalStateException`: no free slot. -/
  | illegalState
  /-- `ArithmeticException`: a table of two slots divides by zero for its probe. -/
  | arithmetic
  | closedChannel
  deriving DecidableEq

/-- What `setUp` makes of a file. -/
structure Format where
  version : Int
  size : Nat
  offset : Nat
  el : Nat
  deriving DecidableEq

structure State where
  format : Format
  kFC : Bytes
  mapped : Option (Finset Nat)
  bw : Option (List (Bytes × Int))
  vb : Bytes
  iterPos : Nat
  /-- The entries that the iterator of `bw` has not handed out. -/
  iter : Option (List (Bytes × Int))
  currentSz : Nat
  closed : Bool
  deriving DecidableEq

def magicNumber : Int := 6442

/-- The order in which a `HashMap` iterates over its entries. -/
structure HashOrder where
  order : List (Bytes × Int) → List (Bytes × Int)
  perm : ∀ l, (order l).Perm l

/-! ### `setUp` -/

def setLength (f : Bytes) (n : Nat) : Bytes := f.take n ++ zeros (n - f.length)

def header (version : Int) : Bytes := toBE32 magicNumber ++ toBE32 version ++ zeros 8

/-- `size` is the prime that the constructor computes, and `file` the file if there is one. -/
def setUp (hashLength size : Nat) (version : Int) (file : Option Bytes) : State :=
  let kFC := file.getD []
  let opened (format : Format) (kFC : Bytes) : State :=
    { format := format
      kFC := kFC
      mapped := if file.isNone then some ∅ else none
      bw := some []
      vb := zeros format.el
      iterPos := 0
      iter := none
      currentSz := 0
      closed := false }
  if version ≠ 0 then
    if kFC.length ≤ 16 then
      let el := hashLength + 8
      opened ⟨version, size, 16, el⟩ (setLength (writeAt kFC 0 (header version)) (el * size + 16))
    else if ofBE32 (slice kFC 0 4) = magicNumber then
      let el := hashLength + 8
      opened ⟨ofBE32 (slice kFC 4 4), (kFC.length - 16) / el, 16, el⟩ kFC
    else
      let el := hashLength + 4
      opened ⟨0, kFC.length / el, 0, el⟩ kFC
  else
    let el := hashLength + 4
    if kFC.length = 0 then opened ⟨0, size, 0, el⟩ (setLength kFC (el * size))
    else opened ⟨0, kFC.length / el, 0, el⟩ kFC

/-! ### Search -/

section
variable (hashLength : Nat) (s : State)

def free : Bytes := zeros hashLength

def keyAt (index : Nat) : Bytes := slice s.kFC (index + s.format.offset) hashLength

def isMapped (hi : Nat) : Bool :=
  match s.mapped with
  | none => true
  | some mapped => decide (hi ∈ mapped)

def probeOf (hash : Nat) : Except Thrown Nat :=
  if s.format.size = 2 then .error .arithmetic else .ok ((1 + hash % (s.format.size - 2)) * s.format.el)

/-- `index -= probe; if (index < 0) index += length`. -/
def stepBack (probe index : Nat) : Nat :=
  if index < probe then index + s.format.size * s.format.el - probe else index - probe

/-- The loop of `indexRehashed`, for at most so many turns. It ends at `loopIndex`, after `size` turns at most. -/
def indexRehashed (key : Bytes) (probe loopIndex : Nat) : Nat → Nat → Int
  | 0, _ => -1
  | n + 1, index =>
    let index := stepBack s probe index
    if isMapped s (index / s.format.el) = true ∧ keyAt hashLength s index = key then index
    else if isMapped s (index / s.format.el) = true ∧ keyAt hashLength s index = free hashLength then -1
    else if index = loopIndex then -1
    else indexRehashed key probe loopIndex n index

/-- The offset of the slot of a key, or -1. -/
def index (key : Bytes) : Except Thrown Int :=
  let hash := hashOf key
  let hi := hash % s.format.size
  let index := hi * s.format.el
  if isMapped s hi = true ∧ keyAt hashLength s index = key then .ok index
  else if isMapped s hi = true ∧ keyAt hashLength s index = free hashLength then .ok (-1)
  else do
    let probe ← probeOf s hash
    .ok (indexRehashed hashLength s key probe index s.format.size index)

/-- The loop of `insertKeyRehash`. A negative result says where the key is stored. -/
def insertKeyRehash (key : Bytes) (probe loopIndex : Nat) : Nat → Nat → Except Thrown Int
  | 0, _ => .error .illegalState
  | n + 1, index =>
    let index := stepBack s probe index
    if isMapped s (index / s.format.el) = true ∧ keyAt hashLength s index = free hashLength then .ok index
    else if isMapped s (index / s.format.el) = true ∧ keyAt hashLength s index = key then .ok (-(index : Int) - 1)
    else if isMapped s (index / s.format.el) = false then .ok index
    else if index = loopIndex then .error .illegalState
    else insertKeyRehash key probe loopIndex n index

def insertionIndex (key : Bytes) : Except Thrown Int :=
  let hash := hashOf key
  let hi := hash % s.format.size
  let index := hi * s.format.el
  if isMapped s hi = true ∧ keyAt hashLength s index = free hashLength then .ok index
  else if isMapped s hi = true ∧ keyAt hashLength s index = key then .ok (-(index : Int) - 1)
  else if isMapped s hi = false then .ok index
  else do
    let probe ← probeOf s hash
    insertKeyRehash hashLength s key probe index s.format.size index

/-! ### Values -/

def encode (version value : Int) : Bytes := if version = 0 then toBE32 value else toBE64 value

def decode (version : Int) (b : Bytes) : Int := if version = 0 then ofBE32 (slice b 0 4) else ofBE64 (slice b 0 8)

/-- The value behind the key of a slot. -/
def valueAt (index : Nat) : Int :=
  decode s.format.version ((slice s.kFC (index + s.format.offset) s.format.el).drop hashLength)

/-- `HashMap.put`. -/
def putEntry (key : Bytes) (value : Int) (bw : List (Bytes × Int)) : List (Bytes × Int) :=
  bw.filter (fun e => e.1 ≠ key) ++ [(key, value)]

def put (key : Bytes) (value : Int) : State × Except Thrown Bool :=
  if s.closed then (s, .error .mapClosed)
  else
    match insertionIndex hashLength s key with
    | .error .illegalState => (s, .error .illegalState)
    | .error _ => (s, .ok false)
    | .ok pos =>
      if pos < 0 then (s, .ok false)
      else
        let vb := overwrite s.vb 0 (key ++ encode s.format.version value)
        let s := { s with
          vb := vb
          bw := s.bw.map (putEntry key value)
          kFC := overwrite s.kFC (pos.toNat + s.format.offset) vb }
        match s.mapped with
        -- `this.mapped.set(pos)` throws when the record is in the file; the exception is caught.
        | none => (s, .ok false)
        | some mapped =>
          ({ s with mapped := some (insert (pos.toNat / s.format.el) mapped), currentSz := s.currentSz + 1 }, .ok true)

def containsKey (key : Bytes) : Except Thrown Bool :=
  if s.closed then .error .mapClosed
  else
    match index hashLength s key with
    | .error _ => .ok false
    | .ok pos => .ok (decide (0 ≤ pos))

def get (key : Bytes) : Except Thrown Int :=
  if s.closed then .error .mapClosed
  else
    match index hashLength s key with
    | .error _ => .ok (-1)
    | .ok pos => if pos = -1 then .ok (-1) else .ok (valueAt hashLength s pos.toNat)

def close : State := { s with bw := none, mapped := none, closed := true }

/-! ### Iteration -/

/-- The iterator stays as it is if there is nothing in `bw`. -/
def iterInit (O : HashOrder) : State :=
  let s := { s with iterPos := 0 }
  match s.bw with
  | some (e :: es) => { s with iter := some (O.order (e :: es)) }
  | _ => s

/-- A turn of the loop of `next` reads into `vb`, which is as it was if nothing is read. -/
def records : Cursor State (Bytes × Int) where
  inside s := decide (s.iterPos < s.kFC.length)
  find s :=
    let vb := readInto s.vb s.kFC (s.iterPos + s.format.offset)
    let key := vb.take hashLength
    if key = free hashLength then none else some (key, decode s.format.version (vb.drop hashLength))
  advance s :=
    { s with vb := readInto s.vb s.kFC (s.iterPos + s.format.offset), iterPos := s.iterPos + s.format.el }

def next : Except Thrown (Option (Bytes × Int)) × State :=
  match s.iter with
  | some [] => (.ok none, s)
  | some (e :: es) => (.ok (some e), { s with iter := some es })
  | none =>
    if s.closed then (.error .closedChannel, s)
    else (records hashLength).next (s.kFC.length + 1) .ok (fun _ => .ok ()) s

/-- What `iterInit` and then `next`, until it returns null, hand out. -/
def enumerate (O : HashOrder) : Outcome (Except Thrown (List (Bytes × Int)) × State) :=
  drain (next hashLength) (s.kFC.length + (s.bw.getD []).length + 2) (iterInit s O)

def getHashes (O : HashOrder) : Outcome (Except Thrown (List Bytes)) :=
  (enumerate hashLength s O).map fun r => r.1.map (List.map Prod.fst)

/-! ### Calls -/

inductive Op where
  | put (key : Bytes) (value : Int)
  | get (key : Bytes)
  | containsKey (key : Bytes)
  | enumerate
  | close
  /-- Another map is set up on the file. -/
  | reopen (size : Nat) (version : Int)

def step (O : HashOrder) : Op → State
  | .put key value => (put hashLength s key value).1
  | .get _ => s
  | .containsKey _ => s
  | .enumerate =>
    match enumerate hashLength s O with
    | .finished r => r.2
    | _ => s
  | .close => close s
  | .reopen size version => setUp hashLength size version (some s.kFC)

end

end EncryptedDedup.SDFS.SimpleByteArrayLongMap
