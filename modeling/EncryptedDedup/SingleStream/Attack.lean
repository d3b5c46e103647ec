import EncryptedDedup.Trace
import EncryptedDedup.Lib.OrderedMap
import EncryptedDedup.Lib.PriorityQueue
import Mathlib.Algebra.Order.Ring.Rat

/-!
# What the attacks share

`locality_attack` and `entropy_attack` read the same six databases, leak chunks in the same way and
keep the inferred set as two queues. A read outside a value and `top()` of an empty heap are
undefined and end the run.
-/

namespace EncryptedDedup.Attack

structure Node where
  key : Fp
  count : Nat
  deriving DecidableEq

/-- `cmp`: the least count leaves the queue first. -/
def cmp (a b : Node) : Bool := a.count > b.count

/-- The command line, and what `rand()` returns on each call. -/
structure Args where
  init : Nat
  thK : Nat
  queueLimit : Nat
  leakRate : ℚ
  /-- The double `LEAK_RATE*10000`. -/
  leakScaled : ℚ
  rand : Nat → Nat

structure Databases where
  origin : OrderedMap Fp Bytes
  leftO : OrderedMap Fp Bytes
  rightO : OrderedMap Fp Bytes
  target : OrderedMap Fp Bytes
  leftT : OrderedMap Fp Bytes
  rightT : OrderedMap Fp Bytes

/-- The `type` argument: 0 for the plaintext databases, 1 for the ciphertext ones. -/
inductive Side where
  | o
  | t
  deriving DecidableEq

def Databases.left (d : Databases) : Side → OrderedMap Fp Bytes
  | .o => d.leftO
  | .t => d.leftT

def Databases.right (d : Databases) : Side → OrderedMap Fp Bytes
  | .o => d.rightO
  | .t => d.rightT

/-! ### Reading values -/

/-- `*(uint64_t *)(value.c_str() + pos)`; the C string ends in a zero byte. -/
def load64 (value : Bytes) (pos : Nat) : Option Nat :=
  if pos + 8 ≤ value.length + 1 then some (ofLE (((value ++ [0]).drop pos).take 8)) else none

def recordSize : Nat := fpSize + 8

def recordsN : Nat → Bytes → Option (List Node)
  | _, [] => some []
  | 0, _ => none
  | n + 1, value => do
    let count ← load64 value fpSize
    let rest ← recordsN n (value.drop recordSize)
    some (⟨Fp.ofBytes (value.take fpSize), count⟩ :: rest)

def records (value : Bytes) : Option (List Node) := recordsN value.length value

def nodeOf (e : Fp × Bytes) : Option Node := do
  let count ← load64 e.2 0
  some ⟨e.1, count⟩

section Heaps

variable (P : PriorityQueue Node cmp)

/-- `tmp > min.count`. -/
def worse (min entry : Node) : Bool := entry.count > min.count

def insertNeighbours (existing : Option Bytes) (k : Nat) (h : P.Heap) : Option P.Heap :=
  match existing with
  | some value => do
    let entries ← records value
    P.offerAll worse k h entries
  | none => some h

def leftInsert (d : Databases) (type : Side) (fp : Fp) (k : Nat) (h : P.Heap) : Option P.Heap :=
  insertNeighbours P ((d.left type).get fp) k h

def rightInsert (d : Databases) (type : Side) (fp : Fp) (k : Nat) (h : P.Heap) : Option P.Heap :=
  insertNeighbours P ((d.right type).get fp) k h

/-- `db_insert`: the `k` most frequent chunks of a frequency database. -/
def dbInsert (db : OrderedMap Fp Bytes) (k : Nat) (h : P.Heap) : Option P.Heap := do
  let entries ← db.entries.mapM nodeOf
  P.offerAll worse k h entries

/-- `while (!pq.empty() && !pc.empty())` on the elements left in the two heaps; the results are the
stacks `omp` and `tmp`, top first. -/
def sortChunks : List Node → List Node → List Node × List Node → List Node × List Node
  | p :: pq, c :: pc, (omp, tmp) => sortChunks pq pc (p :: omp, c :: tmp)
  | _, _, sorted => sorted

/-- The stacks of left neighbours that the main loops build for the heads of the queues. -/
def leftStacks (d : Databases) (args : Args) (p c : Node) : Option (List Node × List Node) := do
  let pq ← leftInsert P d .o p.key args.thK P.empty
  let pc ← leftInsert P d .t c.key args.thK P.empty
  some (sortChunks (P.drain pq) (P.drain pc) ([], []))

def rightStacks (d : Databases) (args : Args) (p c : Node) : Option (List Node × List Node) := do
  let pq ← rightInsert P d .o p.key args.thK P.empty
  let pc ← rightInsert P d .t c.key args.thK P.empty
  some (sortChunks (P.drain pq) (P.drain pc) ([], []))

/-- The initial scan of a frequency database: its most frequent chunks, the largest count first. -/
def topChunks (db : OrderedMap Fp Bytes) (args : Args) : Option (List Node) := do
  let pq ← dbInsert P db args.init P.empty
  some (P.drain pq).reverse

end Heaps

/-! ### State -/

/-- What happens to the inferred set; the programs themselves keep no such record. -/
inductive Event where
  /-- `stat_db` enqueued a leaked chunk. -/
  | leaked (p c : Node)
  /-- A chunk was leaked that is not in the auxiliary information. -/
  | missed (c : Fp)
  /-- The initial scans filled `q_o` and `q_t`. -/
  | ranked (o t : List Node)
  /-- A pair was enqueued while `q_o` held that many. -/
  | paired (p c : Node) (held : Nat)
  /-- A candidate was passed over because it has a mark, while `q_o` held that many. -/
  | skipped (c : Node) (held : Nat)
  deriving DecidableEq

structure State where
  qO : List Node
  qT : List Node
  uniq : OrderedMap Fp Bytes
  total : Nat
  common : Nat
  correct : Nat
  involve : Nat
  leak : Nat
  ansq : List Node
  log : List Event

def State.init : State := ⟨[], [], .empty, 0, 0, 0, 0, 0, [], []⟩

/-- `sprintf(buf, "%lu", count)` cut to eight bytes, which is what `uniq` maps a key to. -/
def countText (count : Nat) : Bytes := resize 8 (decimal count)

def State.push (s : State) (p c : Node) (uniq : OrderedMap Fp Bytes) : State :=
  { s with uniq := uniq, qO := s.qO ++ [p], qT := s.qT ++ [c], log := s.log ++ [.paired p c s.qO.length] }

def State.skip (s : State) (c : Node) : State :=
  { s with log := s.log ++ [.skipped c s.qO.length] }

/-- A pair at the head of the queues with equal fingerprints is a correct inference. -/
def State.examine (s : State) (p c : Node) : State :=
  if p.key = c.key then { s with ansq := s.ansq ++ [p], correct := s.correct + 1 } else s

/-- `q_o.pop(); q_t.pop(); involve ++`. -/
def State.take (s : State) : State :=
  { s with qO := s.qO.tail, qT := s.qT.tail, involve := s.involve + 1 }

/-- The number of inferred chunks that is printed at the end. -/
def State.inferredChunks (s : State) : Nat := s.correct + s.common - s.leak

def leaks (args : Args) (n : Nat) : Bool :=
  args.leakRate ≠ 0 && ((args.rand n % 10000 : Nat) : ℚ) ≤ args.leakScaled

/-- One turn of `stat_db`. -/
def statEntry (d : Databases) (args : Args) (s : State) (e : Fp × Bytes) : Option State :=
  let chosen := leaks args s.total
  let s := { s with total := s.total + 1 }
  if chosen then
    let s := { s with common := s.common + 1 }
    match d.origin.get e.1 with
    | some existing => do
      let entryO ← nodeOf (e.1, existing)
      let entryT ← nodeOf e
      some { s with
        qO := s.qO ++ [entryO]
        uniq := s.uniq.put entryT.key (countText entryT.count)
        qT := s.qT ++ [entryT]
        leak := s.leak + 1
        log := s.log ++ [.leaked entryO entryT] }
    | none => some { s with log := s.log ++ [.missed e.1] }
  else some s

/-- `stat_db` on the first entries of `target`, with an empty `uniq` database. -/
def statEntries (d : Databases) (args : Args) (entries : List (Fp × Bytes)) : Option State :=
  entries.foldlM (statEntry d args) .init

def statDb (d : Databases) (args : Args) : Option State := statEntries d args d.target.entries

end EncryptedDedup.Attack
