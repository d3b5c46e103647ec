import EncryptedDedup.Trace
import EncryptedDedup.Lib.OrderedMap

/-!
# `compareDB`

How many chunks of the files of a type an answer database has, counted with and without duplicates.
-/

namespace EncryptedDedup.CompareDB

def overHold : Nat := 10

/-- The counters of one file: the chunks its key says it has, its records, and how many of either
the answer database has. -/
structure FileCount where
  count : Nat
  uniqueTmp : Nat
  correctLogicTmp : Nat
  correctUniqueTmp : Nat

structure State where
  correctLogicChunkNumber : Nat
  totalLogicChunkNumber : Nat
  correctUniqueChunkNumber : Nat
  totalUniqueChunkNumber : Nat
  uniqueOver10 : Nat
  logicOver10 : Nat
  allOver10 : Nat
  totalFileNumber : Nat

def State.init : State := ⟨0, 0, 0, 0, 0, 0, 0, 0⟩

/-- One turn of the loop over the records of a file. -/
def FileCount.record (ansDb : OrderedMap Bytes Bytes) (f : FileCount) (entry : Bytes) : FileCount :=
  let countTmp := ofLE ((entry.drop 6).take 8)
  match ansDb.get (entry.take 6) with
  | none => f
  | some _ =>
    { f with
      correctLogicTmp := (f.correctLogicTmp + countTmp) % 2 ^ 64
      correctUniqueTmp := f.correctUniqueTmp + 1 }

/-- The counters of the file of a database entry. -/
def fileCount (ansDb : OrderedMap Bytes Bytes) (e : Bytes × Bytes) : FileCount :=
  (cut 14 e.2).foldl (FileCount.record ansDb) ⟨ofLE ((e.1.drop 8).take 8), e.2.length / 14, 0, 0⟩

/-- Add the counters of a file to the totals; the ratios are compared after a multiplication that may
overflow. -/
def State.add (s : State) (f : FileCount) : State :=
  let logicOver := f.count ≤ f.correctLogicTmp * overHold % 2 ^ 64
  let uniqueOver := f.uniqueTmp ≤ f.correctUniqueTmp * overHold % 2 ^ 64
  { correctLogicChunkNumber := (s.correctLogicChunkNumber + f.correctLogicTmp) % 2 ^ 64
    totalLogicChunkNumber := (s.totalLogicChunkNumber + f.count) % 2 ^ 64
    correctUniqueChunkNumber := (s.correctUniqueChunkNumber + f.correctUniqueTmp) % 2 ^ 64
    totalUniqueChunkNumber := (s.totalUniqueChunkNumber + f.uniqueTmp) % 2 ^ 64
    uniqueOver10 := if uniqueOver then s.uniqueOver10 + 1 else s.uniqueOver10
    logicOver10 := if logicOver then s.logicOver10 + 1 else s.logicOver10
    allOver10 := if logicOver ∧ uniqueOver then s.allOver10 + 1 else s.allOver10
    totalFileNumber := s.totalFileNumber + 1 }

def ofType (fcDb : OrderedMap Bytes Bytes) (typeHashStr : Fp) : List (Bytes × Bytes) :=
  fcDb.entries.filter fun e => (e.1.drop 16).take 6 = typeHashStr.bytes

/-- The loop of `compareDB`; none if the argument has no token. `md5` gives the first six bytes of
the MD5 digest. -/
def compareDB (md5 : Bytes → Fp) (fcDb ansDb : OrderedMap Bytes Bytes) (input : Bytes) : Option State :=
  (strtok input (chars [':', '\t', '\n'])).map fun tmp =>
    (ofType fcDb (md5 tmp.1)).foldl (fun s e => s.add (fileCount ansDb e)) .init

end EncryptedDedup.CompareDB
