import EncryptedDedup.SingleStream.Attack
import EncryptedDedup.Lib.Loop

/-!
# `locality_attack`

Pairs are inferred by frequency rank, first over the whole databases and then among the neighbours
of every inferred pair.
-/

namespace EncryptedDedup.LocalityAttack
open Attack

/-- `while (!tmp.empty() && !omp.empty())`, on stacks with their tops first. -/
def pairUp (queueLimit : Nat) : List Node → List Node → State → State
  | p :: omp, c :: tmp, s =>
    if s.uniq.contains c.key then pairUp queueLimit omp tmp s
    else if s.qO.length + 1 > queueLimit then s
    else pairUp queueLimit omp tmp (s.push p c (s.uniq.put c.key (countText c.count)))
  | _, _, s => s

/-- The `uniq` database after the scanned ciphertext chunks are put into it. -/
def markAll (uniq : OrderedMap Fp Bytes) (t : List Node) : OrderedMap Fp Bytes :=
  t.foldl (fun uniq c => uniq.put c.key (countText c.count)) uniq

variable (P : PriorityQueue Node cmp) (d : Databases) (args : Args)

/-- `main_loop` up to its loop: without leaked chunks, start from the most frequent ones. -/
def scan (s : State) : Option State :=
  if args.leakRate = 0 then do
    let o ← topChunks P d.origin args
    let t ← topChunks P d.target args
    some { s with
      qO := s.qO ++ o
      uniq := markAll s.uniq t
      qT := s.qT ++ t
      log := s.log ++ [.ranked o t] }
  else some s

/-- The body of the main loop; enqueued pairs do not change the heads of the queues. -/
def iterate (s : State) : Option State := do
  let p ← s.qO.head?
  let c ← s.qT.head?
  let s := s.examine p c
  let (omp, tmp) ← leftStacks P d args p c
  let s := pairUp args.queueLimit omp tmp s
  let (omp, tmp) ← rightStacks P d args p c
  let s := pairUp args.queueLimit omp tmp s
  some s.take

def mainLoop : Loop State where
  guard s := !s.qO.isEmpty && !s.qT.isEmpty
  body := iterate P d args

def start : Option State := (statDb d args).bind (scan P d args)

/-- The program, with at most `fuel` iterations of the main loop. -/
def run (fuel : Nat) : Outcome State :=
  match start P d args with
  | none => .undefined
  | some s => (mainLoop P d args).run fuel s

end EncryptedDedup.LocalityAttack
