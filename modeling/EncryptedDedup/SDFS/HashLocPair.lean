import EncryptedDedup.Lib.Bytes

/-!
# `HashLocPair`

A reference to a piece of a stored chunk: `nlen` bytes of the chunk `hash` from `offset` on are at `pos`
of a chunk of a file.
-/

namespace EncryptedDedup.SDFS

/-- The value of an `int` expression. -/
def int (x : Int) : Int := x.bmod (2 ^ 32)

/-- The value of a `long` expression. -/
def long (x : Int) : Int := x.bmod (2 ^ 64)

structure HashLocPair where
  hash : Bytes
  hashloc : Bytes
  len : Int
  pos : Int
  offset : Int
  nlen : Int
  dup : Bool
  inserted : Bool
  deriving DecidableEq

/-- A new object; the flags are not copied. -/
def HashLocPair.clone (h : HashLocPair) : HashLocPair := { h with dup := false, inserted := false }

def HashLocPair.ep (h : HashLocPair) : Int := int (h.pos + h.nlen)

inductive Thrown where
  /-- `"Overflow ep=" + ep + " sp=" + sp`. -/
  | overflow (ep sp : Int)
  /-- `"Position not found " + pos`. -/
  | positionNotFound (pos : Int)
  /-- `"data is corrupt " + h`. -/
  | dataIsCorrupt (h : HashLocPair)
  /-- `"Buffer overflow ar size = " + size + " max size = " + max`. -/
  | arSize (size max : Int)
  | bufferOverflow
  | bufferUnderflow
  | negativeArraySize
  | nullPointer
  | indexOutOfBounds
  | illegalArgument
  | stackOverflow
  | bufferClosed
  | ioException
  deriving DecidableEq

/-! ### Arithmetic of `int` -/

theorem int_eq {x : Int} (low : -2 ^ 31 ≤ x) (high : x < 2 ^ 31) : int x = x := by
  rw [int, Int.bmod_def]
  split <;> omega

theorem long_eq {x : Int} (low : -2 ^ 63 ≤ x) (high : x < 2 ^ 63) : long x = x :=
  Int.bmod_eq_of_le_mul_two (by omega) (by omega)

theorem int_int_add (x y : Int) : int (int x + y) = int (x + y) := Int.bmod_add_bmod

end EncryptedDedup.SDFS
