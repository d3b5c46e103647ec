import EncryptedDedup.Trace
import EncryptedDedup.Lib.OrderedMap

/-!
# `locality_count`

Counts the chunks of a trace, and for every chunk its left and right neighbours. A neighbour table
is one value of the left or right database: records of a 6-byte fingerprint and an 8-byte count.
-/

namespace EncryptedDedup.LocalityCount

structure Databases where
  db : OrderedMap Fp Bytes
  storeLeft : OrderedMap Fp Bytes
  storeRight : OrderedMap Fp Bytes

def Databases.empty : Databases := ⟨.empty, .empty, .empty⟩

def recordSize : Nat := fpSize + 8

def intMax : Nat := 2 ^ 31 - 1

/-- `last_value.assign(last); last_value.resize(FP_SIZE)`. The assignment takes a C string; what it reads
behind `last`, which has no terminator, is cut off again. -/
def assigned (field : Fp) : Bytes := resize fpSize (cstr field.bytes)

/-- The search loop over a value, from `pos`: the position of the record of `key`, if there is one.
Outside the first option, `int pos` overflows. It does so in the last step of the loop only, when `pos`
goes behind the last record that it can address; where it wraps, the next search that gets there reads
before the value. -/
def findRecord (value key : Bytes) : Nat → Nat → Option (Option Nat)
  | 0, _ => some none
  | fuel + 1, pos =>
    if pos < value.length - 1 then
      if (value.drop pos).take fpSize = key then some (some pos)
      else if pos + recordSize ≤ intMax then findRecord value key fuel (pos + recordSize)
      else none
    else some none

/-- The new value of a neighbour table that is asked to count `neighbour`. -/
def addNeighbour (neighbour : Bytes) : Option Bytes → Option Bytes
  | none => some (neighbour ++ u64 1)
  | some value => do
    match ← findRecord value neighbour value.length 0 with
    | none => some (value ++ neighbour ++ u64 1)
    | some pos =>
      let icm := ofLE ((value.drop (pos + fpSize)).take 8) + 1
      some (value.take (pos + fpSize) ++ u64 icm ++ value.drop (pos + fpSize + 8))

def countNeighbour (store : OrderedMap Fp Bytes) (key neighbour : Fp) :
    Option (OrderedMap Fp Bytes) := do
  let value ← addNeighbour (assigned neighbour) (store.get key)
  some ((store.delete key).put key value)

def countFrequency (db : OrderedMap Fp Bytes) (hash : Fp) : OrderedMap Fp Bytes :=
  match db.get hash with
  | some value => (db.delete hash).put hash (u64 (ofLE (value.take 8) + 1))
  | none => db.put hash (u64 1)

/-- The body of the read loop after a chunk line is parsed; `last` is none while `flag` is 0. -/
def countChunk (s : Databases) (last : Option Fp) (hash : Fp) : Option Databases :=
  let db := countFrequency s.db hash
  match last with
  | none => some { s with db := db }
  | some last => do
    let left ← countNeighbour s.storeLeft hash last
    let right ← countNeighbour s.storeRight last hash
    some ⟨db, left, right⟩

/-- `strpbrk(read_buffer, "Chunk")`: a line with any of these letters is skipped as a title. -/
def isTitle (line : Bytes) : Bool := strpbrk line (chars ['C', 'h', 'u', 'n', 'k'])

/-- One turn of the read loop. -/
def readLine (st : Databases × Option Fp) (line : Bytes) : Option (Databases × Option Fp) :=
  if isTitle line then some st
  else do
    let hash := (readChunk line).1
    let s ← countChunk st.1 st.2 hash
    some (s, some hash)

/-- The loop of `read_hashes` over the first lines of a file, on databases from earlier runs. -/
def readLines (s : Databases) (lines : List Bytes) : Option Databases :=
  (lines.foldlM readLine (s, none)).map Prod.fst

def readHashes (s : Databases) (fp : Bytes) : Option Databases := readLines s (bufferLines 256 fp)

def feed (fps : List Bytes) : Option Databases := fps.foldlM readHashes .empty

/-! ### What the traces contain -/

def chunksOf (lines : List Bytes) : List Fp :=
  (lines.filter (fun l => !isTitle l)).map (fun l => (readChunk l).1)

def traceOf (fp : Bytes) : List Fp := chunksOf (bufferLines 256 fp)

def adjacent (trace : List Fp) : List (Fp × Fp) := trace.zip trace.tail

def adjacents (traces : List (List Fp)) : List (Fp × Fp) := traces.flatMap adjacent

/-- The left neighbours of `x`, one for each co-occurrence. -/
def predecessors (pairs : List (Fp × Fp)) (x : Fp) : List Fp :=
  (pairs.filter (fun p => p.2 = x)).map Prod.fst

def successors (pairs : List (Fp × Fp)) (x : Fp) : List Fp :=
  (pairs.filter (fun p => p.1 = x)).map Prod.snd

/-! ### Reading a neighbour table back -/

/-- Cut a value into records. -/
def unpackN : Nat → Bytes → Option (List (Fp × Nat))
  | _, [] => some []
  | 0, _ => none
  | n + 1, value =>
    if recordSize ≤ value.length then do
      let rest ← unpackN n (value.drop recordSize)
      some ((Fp.ofBytes (value.take fpSize), ofLE ((value.drop fpSize).take 8)) :: rest)
    else none

def unpack (value : Bytes) : Option (List (Fp × Nat)) := unpackN value.length value

def tableOf (store : OrderedMap Fp Bytes) (key : Fp) : Option (List (Fp × Nat)) :=
  match store.get key with
  | none => some []
  | some value => unpack value

end EncryptedDedup.LocalityCount
