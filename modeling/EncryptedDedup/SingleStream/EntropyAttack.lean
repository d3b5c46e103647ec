import EncryptedDedup.SingleStream.Attack
import EncryptedDedup.Lib.Loop

/-!
# `entropy_attack`

The distribution-based attack. Candidates are still ranked by frequency, but a ciphertext chunk is
paired with the plaintext chunk of nearby rank whose neighbours have the closest entropies. The
attack is compiled with `E_ATTACK` and `MIN_ENTROPY` 0. Doubles are any ordered type with the
operations that the program calls.
-/

namespace EncryptedDedup.EntropyAttack
open Attack

structure Arith (D : Type) where
  ofNat : Nat → D
  add : D → D → D
  sub : D → D → D
  mul : D → D → D
  div : D → D → D
  neg : D → D
  log : D → D
  sqrt : D → D

/-- What a call of `peakToPair` admits as a candidate. -/
structure Tuning (D : Type) where
  /-- How far below its own rank a chunk looks, by `flag`. -/
  r : Nat → Nat
  radius : Nat
  admissible : D → Bool
  maxInt : D

/-- A chunk with the entropies of its left and right neighbours, which the program keeps in arrays
next to the stack. -/
structure Candidate (D : Type) where
  node : Node
  left : D
  right : D

def entropyThreshold : Nat := 1

def maxInt : Nat := 9999999

def maxU : Nat := 4000

section Entropy

variable {D : Type} [LinearOrder D] (A : Arith D)

def tuning : Tuning D where
  r flag := if flag = 1 then 0 else 2
  radius := 2
  admissible d := d < A.ofNat entropyThreshold
  maxInt := A.ofNat maxInt

def entropy (tp : List Node) : D :=
  let countSum := tp.foldl (fun sum it => (sum + it.count) % 2 ^ 64) 0
  if countSum = 0 then A.ofNat 0
  else tp.foldl (fun ans it =>
    let po := A.div (A.ofNat it.count) (A.ofNat countSum)
    if po ≠ A.ofNat 0 then A.add ans (A.mul (A.neg po) (A.div (A.log po) (A.log (A.ofNat 2))))
    else ans) (A.ofNat 0)

def dist (l1 r1 l2 r2 : D) : D :=
  A.sqrt (A.add (A.mul (A.sub l1 l2) (A.sub l1 l2)) (A.mul (A.sub r1 r2) (A.sub r1 r2)))

variable (P : PriorityQueue Node cmp) (d : Databases)

/-- One turn of `getEntropy`. -/
def measure (type : Side) (num : Nat) (ne : Node) : Option (Candidate D) := do
  let ui ← leftInsert P d type ne.key num P.empty
  let leftEntropy := entropy A (P.drain ui).reverse
  let ui ← rightInsert P d type ne.key num P.empty
  let rightEntropy := entropy A (P.drain ui).reverse
  some ⟨ne, leftEntropy, rightEntropy⟩

/-- `getEntropy` of a stack, top first. A higher stack is written past the end of the arrays. -/
def getEntropy (inStack : List Node) (type : Side) (num : Nat) : Option (List (Candidate D)) :=
  if inStack.length ≤ maxU then inStack.mapM (measure A P d type num) else none

end Entropy

/-! ### `peakToPair` -/

/-- What changes in a call: the state, the plaintext chunks with their entropies, and (for the
record) the positions that were assigned. -/
structure Matching (D : Type) where
  state : State
  origins : List (Candidate D)
  slots : List Nat

section Pairing

variable {D : Type} [LinearOrder D] (A : Arith D) (T : Tuning D)

/-- The plaintext chunks from rank `max(0, i - r)` to below `min(originNum, i + RADIUS)`. -/
def window (flag i : Nat) (origins : List (Candidate D)) : List (Candidate D × Nat) :=
  (origins.zipIdx.drop (i - T.r flag)).take (min origins.length (i + T.radius) - (i - T.r flag))

/-- One turn of the inner loop: keep `j` if it is admissible and closer than the best so far. -/
def nearer (t : Candidate D) (best : D × Option (Candidate D × Nat)) (o : Candidate D × Nat) :
    D × Option (Candidate D × Nat) :=
  let nowDist := dist A t.left t.right o.1.left o.1.right
  if T.admissible nowDist && nowDist < best.1 then (nowDist, some o) else best

/-- The inner loop: `minDist`, and `minpos` unless it is -1. -/
def closest (t : Candidate D) (candidates : List (Candidate D × Nat)) : D × Option (Candidate D × Nat) :=
  candidates.foldl (nearer A T t) (T.maxInt, none)

/-- Pair `t` with the chunk at position `j`: both are marked, and the position is used up. -/
def Matching.assign (m : Matching D) (t o : Candidate D) (j : Nat) : Matching D where
  state := m.state.push o.node t.node
    ((m.state.uniq.put t.node.key o.node.key.bytes).put o.node.key t.node.key.bytes)
  origins := m.origins.set j { o with left := T.maxInt, right := T.maxInt }
  slots := m.slots ++ [j]

/-- The outer loop of `peakToPair`, from the chunk of rank `i` on. -/
def turns (queueLimit flag : Nat) : Nat → List (Candidate D) → Matching D → Matching D
  | _, [], m => m
  | i, t :: targets, m =>
    match (closest A T t (window T flag i m.origins)).2 with
    | none => turns queueLimit flag (i + 1) targets m
    | some (o, j) =>
      if m.state.uniq.contains t.node.key then
        turns queueLimit flag (i + 1) targets { m with state := m.state.skip t.node }
      else if m.state.qO.length + 1 > queueLimit then m
      else turns queueLimit flag (i + 1) targets (m.assign T t o j)

def peakToPair (queueLimit flag : Nat) (origins targets : List (Candidate D)) (s : State) : Matching D :=
  turns A T queueLimit flag 0 targets ⟨s, origins, []⟩

end Pairing

/-! ### `main_loop` -/

structure EntropyState extends State where
  smallChunkAmount : Nat
  bigChunkError : Nat
  smallChunkError : Nat

/-- `equal(q_o.front().key, q_t.front().key)` and the statistics about it. -/
def EntropyState.inspect (s : EntropyState) (p c : Node) : EntropyState :=
  let s := { s with toState := s.toState.examine p c }
  if p.key = c.key then
    if c.count < 50 then { s with smallChunkAmount := s.smallChunkAmount + 1 } else s
  else if p.count > 50 then { s with bigChunkError := s.bigChunkError + 1 }
  else { s with smallChunkError := s.smallChunkError + 1 }

section MainLoop

variable {D : Type} [LinearOrder D] (P : PriorityQueue Node cmp) (A : Arith D) (T : Tuning D)
  (d : Databases) (args : Args)

/-- The stacks of candidates with their entropies, as every caller of `peakToPair` computes them. -/
def candidates (omp tmp : List Node) : Option (List (Candidate D) × List (Candidate D)) := do
  let origins ← getEntropy A P d omp .o 5000
  let targets ← getEntropy A P d tmp .t 5000
  some (origins, targets)

def topCandidates : Option (List (Candidate D) × List (Candidate D)) := do
  let tmpA ← topChunks P d.origin args
  let tmpB ← topChunks P d.target args
  candidates P A d tmpA tmpB

def leftCandidates (p c : Node) : Option (List (Candidate D) × List (Candidate D)) := do
  let (omp, tmp) ← leftStacks P d args p c
  candidates P A d omp tmp

def rightCandidates (p c : Node) : Option (List (Candidate D) × List (Candidate D)) := do
  let (omp, tmp) ← rightStacks P d args p c
  candidates P A d omp tmp

/-- `main_loop` up to its loop. -/
def scan (s : State) : Option State :=
  if args.leakRate = 0 then do
    let (origins, targets) ← topCandidates P A d args
    some (peakToPair A T args.queueLimit 0 origins targets s).state
  else some s

/-- The body of the main loop; enqueued pairs do not change the heads of the queues. -/
def iterate (s : EntropyState) : Option EntropyState := do
  let p ← s.qO.head?
  let c ← s.qT.head?
  let s := s.inspect p c
  let (origins, targets) ← leftCandidates P A d args p c
  let s := { s with toState := (peakToPair A T args.queueLimit 1 origins targets s.toState).state }
  let (origins, targets) ← rightCandidates P A d args p c
  let s := { s with toState := (peakToPair A T args.queueLimit 1 origins targets s.toState).state }
  some { s with toState := s.toState.take }

def mainLoop : Loop EntropyState where
  guard s := !s.qO.isEmpty && !s.qT.isEmpty
  body := iterate P A T d args

def start : Option EntropyState := do
  let s ← statDb d args
  let s ← scan P A T d args s
  some ⟨s, 0, 0, 0⟩

/-- The program, with at most `fuel` iterations of the main loop. -/
def run (fuel : Nat) : Outcome EntropyState :=
  match start P A T d args with
  | none => .undefined
  | some s => (mainLoop P A T d args).run fuel s

/-- The calls of `peakToPair` in a run: the state before, both stacks and the flag. -/
inductive Called : State → List (Candidate D) → List (Candidate D) → Nat → Prop where
  | scan {s : State} {origins targets : List (Candidate D)} (leaked : statDb d args = some s)
      (unleaked : args.leakRate = 0) (stacked : topCandidates P A d args = some (origins, targets)) :
      Called s origins targets 0
  | left {s₀ s : EntropyState} {n : Nat} {p c : Node} {origins targets : List (Candidate D)}
      (started : start P A T d args = some s₀) (tested : (mainLoop P A T d args).Tests s₀ n s)
      (headO : s.qO.head? = some p) (headT : s.qT.head? = some c)
      (stacked : leftCandidates P A d args p c = some (origins, targets)) :
      Called (s.inspect p c).toState origins targets 1
  | right {s₀ s : EntropyState} {n : Nat} {p c : Node}
      {origins targets origins' targets' : List (Candidate D)}
      (started : start P A T d args = some s₀) (tested : (mainLoop P A T d args).Tests s₀ n s)
      (headO : s.qO.head? = some p) (headT : s.qT.head? = some c)
      (stacked : leftCandidates P A d args p c = some (origins, targets))
      (stacked' : rightCandidates P A d args p c = some (origins', targets')) :
      Called (peakToPair A T args.queueLimit 1 origins targets (s.inspect p c).toState).state
        origins' targets' 1

/-- The points of a run: after every turn of `stat_db` and `peakToPair`, and at every test of the
loop condition. -/
inductive Point : State → Prop where
  | leaking {s : State} {entries rest : List (Fp × Bytes)} (part : d.target.entries = entries ++ rest)
      (leaked : statEntries d args entries = some s) : Point s
  | pairing {s : State} {origins targets rest : List (Candidate D)} {flag : Nat}
      (called : Called P A T d args s origins (targets ++ rest) flag) :
      Point (peakToPair A T args.queueLimit flag origins targets s).state
  | head {s₀ s : EntropyState} {n : Nat} (started : start P A T d args = some s₀)
      (tested : (mainLoop P A T d args).Tests s₀ n s) : Point s.toState

end MainLoop

end EncryptedDedup.EntropyAttack
