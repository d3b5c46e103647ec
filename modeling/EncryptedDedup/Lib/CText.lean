import EncryptedDedup.Lib.Bytes
import Mathlib.Data.Nat.Digits.Defs

/-!
# C text functions

The parts of `string.h`, `stdlib.h` and `stdio.h` that read text: `fgets`, `strpbrk`, `strtok`,
`strtol` and `atoi`, and `std::to_string` as their inverse.
-/

namespace EncryptedDedup

def chars (cs : List Char) : Bytes := cs.map Char.toUInt8

/-! ### Lines and tokens -/

/-- At most `n` bytes, up to and including the first newline; then what is left. -/
def takeLine : Nat → Bytes → Bytes × Bytes
  | 0, s => ([], s)
  | _ + 1, [] => ([], [])
  | n + 1, c :: s =>
    if c = 10 then ([c], s)
    else
      let (line, rest) := takeLine n s
      (c :: line, rest)

/-- `fgets` with a buffer of `size` bytes: the line and the rest of the file, or none at its end. -/
def fgets (size : Nat) (file : Bytes) : Option (Bytes × Bytes) :=
  if file = [] then none else some (takeLine (size - 1) file)

/-- The buffers that repeated calls of `fgets` return, at most `calls` of them. -/
def fgetsN (size : Nat) : Nat → Bytes → List Bytes
  | 0, _ => []
  | calls + 1, file =>
    match fgets size file with
    | none => []
    | some (line, rest) => line :: fgetsN size calls rest

/-- The buffers of a whole file. A call that returns one consumes at least one byte. -/
def bufferLines (size : Nat) (file : Bytes) : List Bytes := fgetsN size file.length file

/-- Whether the string contains a byte of `accept`. -/
def strpbrk (s accept : Bytes) : Bool := (cstr s).any (fun c => accept.contains c)

/-- The next token and the string after the delimiter that ends it. -/
def strtok (s delims : Bytes) : Option (Bytes × Bytes) :=
  let start := (cstr s).dropWhile (fun c => delims.contains c)
  if start = [] then none
  else some (start.takeWhile (fun c => !delims.contains c),
    (start.dropWhile (fun c => !delims.contains c)).drop 1)

/-- The string in the buffer after `strtok` has ended its first token with a zero byte. -/
def strtokLeft (s delims : Bytes) : Bytes :=
  (cstr s).takeWhile (fun c => delims.contains c) ++
    ((cstr s).dropWhile (fun c => delims.contains c)).takeWhile (fun c => !delims.contains c)

theorem cstr_strtokLeft (s delims : Bytes) : cstr (strtokLeft s delims) = strtokLeft s delims := by
  apply cstr_of_not_mem
  intro zero
  have inside : (0 : UInt8) ∈ cstr s := by
    rcases List.mem_append.mp zero with lead | token
    · exact (List.takeWhile_sublist _).subset lead
    · exact (List.dropWhile_sublist _).subset ((List.takeWhile_sublist _).subset token)
  exact absurd (List.mem_takeWhile_imp inside) (by decide)

theorem strtok_strtokLeft (s delims : Bytes) :
    strtok (strtokLeft s delims) delims = (strtok s delims).map fun found => (found.1, []) := by
  unfold strtok
  rw [cstr_strtokLeft, strtokLeft, List.dropWhile_append_of_pos fun c lead => List.mem_takeWhile_imp lead]
  cases start : (cstr s).dropWhile (fun c => delims.contains c) with
  | nil => rfl
  | cons c rest =>
    have first : (!delims.contains c) = true := by
      have head := List.head?_dropWhile_not (fun c => delims.contains c) (cstr s)
      rw [start] at head
      simpa using head
    have token : (c :: rest).takeWhile (fun c => !delims.contains c) =
        c :: rest.takeWhile fun c => !delims.contains c := List.takeWhile_cons_of_pos first
    have whole : ∀ x ∈ c :: rest.takeWhile (fun c => !delims.contains c), (!delims.contains x) = true := by
      rw [← token]
      exact fun x member => List.mem_takeWhile_imp (p := fun c => !delims.contains c) member
    have kept : (c :: rest.takeWhile fun c => !delims.contains c).dropWhile (fun c => delims.contains c) =
        c :: rest.takeWhile fun c => !delims.contains c :=
      List.dropWhile_cons_of_neg (by simpa using first)
    rw [token, kept, if_neg (List.cons_ne_nil _ _), if_neg (List.cons_ne_nil _ _), Option.map_some, token,
      List.takeWhile_eq_self_iff.mpr whole, List.dropWhile_eq_nil_iff.mpr whole, List.drop_nil]

theorem strtok_token {token rest delims : Bytes} {c : UInt8} (filled : token ≠ [])
    (plain : ∀ x ∈ token, delims.contains x = false) (ends : delims.contains c = true)
    (visible : (0 : UInt8) ∉ token ++ c :: rest) : strtok (token ++ c :: rest) delims = some (token, rest) := by
  have kept : (token ++ c :: rest).dropWhile (fun x => delims.contains x) = token ++ c :: rest := by
    obtain ⟨first, tail, rfl⟩ := List.exists_cons_of_ne_nil filled
    exact List.dropWhile_cons_of_neg (by rw [plain first List.mem_cons_self]; decide)
  have inside : ∀ x ∈ token, (!delims.contains x) = true := fun x member => by rw [plain x member]; rfl
  have outside : ¬ (!delims.contains c) = true := by rw [ends]; decide
  rw [strtok, cstr_of_not_mem visible, kept, if_neg (List.append_ne_nil_of_left_ne_nil filled _),
    List.takeWhile_append_of_pos inside, List.dropWhile_append_of_pos inside,
    List.takeWhile_cons_of_neg (p := fun x => !delims.contains x) outside,
    List.dropWhile_cons_of_neg (p := fun x => !delims.contains x) outside, List.append_nil, List.drop_one,
    List.tail_cons]

/-! ### Numbers -/

def isSpace (c : UInt8) : Bool := c = 32 || (9 ≤ c && c ≤ 13)

def digitValue (base : Nat) (c : UInt8) : Option Nat :=
  let value :=
    if 48 ≤ c ∧ c ≤ 57 then c.toNat - 48
    else if 97 ≤ c ∧ c ≤ 122 then c.toNat - 87
    else if 65 ≤ c ∧ c ≤ 90 then c.toNat - 55
    else base
  if value < base then some value else none

def readDigits (base : Nat) : Nat → Bytes → Nat
  | acc, [] => acc
  | acc, c :: s =>
    match digitValue base c with
    | none => acc
    | some d => readDigits base (acc * base + d) s

/-- The digits of a number; in base 16 they may follow `0x`. -/
def readMagnitude (base : Nat) : Bytes → Nat
  | 48 :: x :: s =>
    if base = 16 ∧ (x = 120 ∨ x = 88) then readDigits base 0 s else readDigits base 0 (48 :: x :: s)
  | s => readDigits base 0 s

/-- `strtol`, with its value clamped to a 64-bit `long`. -/
def strtol (base : Nat) (s : Bytes) : Int :=
  match (cstr s).dropWhile isSpace with
  | 45 :: rest => max (-2 ^ 63) (-(readMagnitude base rest : Int))
  | 43 :: rest => min (2 ^ 63 - 1) (readMagnitude base rest)
  | rest => min (2 ^ 63 - 1) (readMagnitude base rest)

/-- `atoi`: the `long` cut to 32 bits. -/
def atoi (s : Bytes) : Int := (strtol 10 s).bmod (2 ^ 32)

/-- Conversion of a signed value to `uint64_t`. -/
def toU64 (x : Int) : Nat := (x % 2 ^ 64).toNat

/-- `std::to_string` of an unsigned number. -/
def decimal (n : Nat) : Bytes :=
  if n = 0 then [48] else (Nat.digits 10 n).reverse.map (fun d => UInt8.ofNat (48 + d))

/-- `%d` of an `int`. -/
def formatInt (n : Int) : Bytes := if n < 0 then 45 :: decimal n.natAbs else decimal n.natAbs

def hexDigit (d : UInt8) : UInt8 := if d < 10 then 48 + d else 87 + d

/-- `%02x` of a byte. -/
def formatByte (b : UInt8) : Bytes := [hexDigit (b / 16), hexDigit (b % 16)]

theorem digitValue_decimal {d : Nat} (small : d < 10) : digitValue 10 (UInt8.ofNat (48 + d)) = some d := by
  have cases : d = 0 ∨ d = 1 ∨ d = 2 ∨ d = 3 ∨ d = 4 ∨ d = 5 ∨ d = 6 ∨ d = 7 ∨ d = 8 ∨ d = 9 := by omega
  rcases cases with rfl | rfl | rfl | rfl | rfl | rfl | rfl | rfl | rfl | rfl <;> rfl

theorem readDigits_digits (ds : List Nat) (small : ∀ d ∈ ds, d < 10) :
    readDigits 10 0 (ds.reverse.map (fun d => UInt8.ofNat (48 + d))) = Nat.ofDigits 10 ds := by
  have folded : ∀ (l : List Nat) (acc : Nat), (∀ d ∈ l, d < 10) →
      readDigits 10 acc (l.map (fun d => UInt8.ofNat (48 + d))) = l.foldl (fun a d => a * 10 + d) acc := by
    intro l
    induction l with
    | nil => intro acc _; rfl
    | cons d l ih =>
      intro acc small
      rw [List.map_cons, readDigits, digitValue_decimal (small d List.mem_cons_self), List.foldl_cons]
      exact ih _ (fun x member => small x (List.mem_cons_of_mem _ member))
  rw [folded ds.reverse 0 (fun d member => small d (List.mem_reverse.mp member)), List.foldl_reverse,
    Nat.ofDigits_eq_foldr]
  congr 1
  funext d a
  rw [Nat.cast_id, Nat.mul_comm, Nat.add_comm]

theorem decimal_digits (n : Nat) : ∀ c ∈ decimal n, 48 ≤ c ∧ c ≤ 57 := by
  intro c member
  rw [decimal] at member
  split at member
  · rw [List.mem_singleton.mp member]
    decide
  · obtain ⟨d, digit, rfl⟩ := List.mem_map.mp member
    have small : d < 10 := Nat.digits_lt_base (by omega) (List.mem_reverse.mp digit)
    have cases : d = 0 ∨ d = 1 ∨ d = 2 ∨ d = 3 ∨ d = 4 ∨ d = 5 ∨ d = 6 ∨ d = 7 ∨ d = 8 ∨ d = 9 := by omega
    rcases cases with rfl | rfl | rfl | rfl | rfl | rfl | rfl | rfl | rfl | rfl <;> decide

theorem readMagnitude_decimal (n : Nat) : readMagnitude 10 (decimal n) = n := by
  have plain : ∀ s, readMagnitude 10 s = readDigits 10 0 s := by
    intro s
    unfold readMagnitude
    split
    · simp
    · rfl
  rw [plain, decimal]
  split
  · rename_i zero
    subst zero
    rfl
  · rw [readDigits_digits _ (fun d member => Nat.digits_lt_base (by omega) member), Nat.ofDigits_digits]

theorem strtol_digits {s : Bytes} (digits : ∀ c ∈ s, 48 ≤ c ∧ c ≤ 57) :
    strtol 10 s = min (2 ^ 63 - 1) (readMagnitude 10 s : Int) := by
  have visible : cstr s = s := by
    apply cstr_of_not_mem
    intro zero
    exact absurd (digits 0 zero).1 (by decide)
  have first : s.dropWhile isSpace = s := by
    cases s with
    | nil => rfl
    | cons c s =>
      have digit := (digits c List.mem_cons_self).1
      have dark : isSpace c = false := by
        simp only [UInt8.le_iff_toNat_le] at digit
        simp only [isSpace, Bool.or_eq_false_iff, decide_eq_false_iff_not, Bool.and_eq_false_iff,
          UInt8.le_iff_toNat_le, ← UInt8.toNat_inj]
        simp at digit ⊢
        omega
      rw [List.dropWhile_cons_of_neg (by simp [dark])]
  rw [strtol, visible, first]
  split
  · exact absurd (digits 45 List.mem_cons_self).1 (by decide)
  · exact absurd (digits 43 List.mem_cons_self).1 (by decide)
  · rfl

theorem strtol_decimal (n : Nat) : strtol 10 (decimal n) = min (2 ^ 63 - 1) (n : Int) := by
  rw [strtol_digits (decimal_digits n), readMagnitude_decimal]

/-- The number that a 64-bit variable has after `atoi` read the digits of `n`. -/
def readAsInt (n : Nat) : Nat := toU64 ((min (2 ^ 63 - 1) (n : Int)).bmod (2 ^ 32))

theorem readAsInt_eq_iff {n : Nat} (long : n < 2 ^ 63) : readAsInt n = n ↔ n < 2 ^ 31 := by
  have kept : min (2 ^ 63 - 1) (n : Int) = n := by omega
  unfold readAsInt toU64
  rw [kept, Int.bmod_def]
  split <;> omega

theorem readAsInt_lt (n : Nat) : readAsInt n < 2 ^ 64 := by
  unfold readAsInt toU64
  omega

theorem toU64_atoi {s : Bytes} (digits : ∀ c ∈ s, 48 ≤ c ∧ c ≤ 57) :
    toU64 (atoi s) = readAsInt (readMagnitude 10 s) := by
  rw [readAsInt, atoi, strtol_digits digits]

theorem toU64_atoi_digits {s : Bytes} (digits : ∀ c ∈ s, 48 ≤ c ∧ c ≤ 57) (small : readMagnitude 10 s < 2 ^ 31) :
    toU64 (atoi s) = readMagnitude 10 s := by
  rw [toU64_atoi digits]
  exact (readAsInt_eq_iff (by omega)).mpr small

theorem toU64_atoi_decimal {n : Nat} (small : n < 2 ^ 31) : toU64 (atoi (decimal n)) = n := by
  have read := toU64_atoi_digits (decimal_digits n) (by rwa [readMagnitude_decimal])
  rwa [readMagnitude_decimal] at read

/-! ### Files made of short lines -/

theorem takeLine_of_line {n : Nat} {l : Bytes} (short : l.length < n) (plain : (10 : UInt8) ∉ l)
    (rest : Bytes) : takeLine n (l ++ 10 :: rest) = (l ++ [10], rest) := by
  induction l generalizing n with
  | nil =>
    obtain ⟨n, rfl⟩ : ∃ m, n = m + 1 := ⟨n - 1, by simp at short; omega⟩
    rfl
  | cons c l ih =>
    obtain ⟨n, rfl⟩ : ∃ m, n = m + 1 := ⟨n - 1, by simp at short; omega⟩
    obtain ⟨other, plain⟩ := not_or.mp (mt List.mem_cons.mpr plain)
    rw [List.cons_append, takeLine, if_neg (Ne.symm other), ih (by simpa using short) plain]
    rfl

theorem length_bufferLines_le (size : Nat) (file : Bytes) : (bufferLines size file).length ≤ file.length := by
  have counted : ∀ (calls : Nat) (file : Bytes), (fgetsN size calls file).length ≤ calls := by
    intro calls
    induction calls with
    | zero => exact fun _ => Nat.le_refl 0
    | succ calls ih =>
      intro file
      rw [fgetsN]
      split
      · exact Nat.zero_le _
      · exact Nat.succ_le_succ (ih _)
  exact counted file.length file

theorem bufferLines_flatten {size : Nat} (lines : List Bytes)
    (short : ∀ l ∈ lines, l.length + 1 < size) (plain : ∀ l ∈ lines, (10 : UInt8) ∉ l) :
    bufferLines size (lines.map (· ++ [10])).flatten = lines.map (· ++ [10]) := by
  have counted : ∀ (ls : List Bytes) (calls : Nat), (∀ l ∈ ls, l.length + 1 < size) →
      (∀ l ∈ ls, (10 : UInt8) ∉ l) → ls.length ≤ calls →
      fgetsN size calls (ls.map (· ++ [10])).flatten = ls.map (· ++ [10]) := by
    intro ls
    induction ls with
    | nil =>
      intro calls _ _ _
      cases calls <;> simp [fgetsN, fgets]
    | cons l ls ih =>
      intro calls short plain enough
      obtain ⟨calls, rfl⟩ : ∃ m, calls = m + 1 := ⟨calls - 1, by simp at enough; omega⟩
      have room := short l List.mem_cons_self
      have split : ((l :: ls).map (· ++ [10])).flatten = l ++ 10 :: (ls.map (· ++ [10])).flatten := by simp
      rw [split, fgetsN, fgets, if_neg (by simp),
        takeLine_of_line (by omega) (plain l List.mem_cons_self)]
      dsimp only
      rw [ih calls (fun x hx => short x (List.mem_cons_of_mem _ hx))
        (fun x hx => plain x (List.mem_cons_of_mem _ hx)) (by simpa using enough), List.map_cons]
  refine counted lines _ short plain ?_
  induction lines with
  | nil => simp
  | cons l ls ih =>
    have tail := ih (fun x hx => short x (List.mem_cons_of_mem _ hx))
      (fun x hx => plain x (List.mem_cons_of_mem _ hx))
    simp only [List.map_cons, List.flatten_cons, List.length_append, List.length_cons] at tail ⊢
    omega

end EncryptedDedup
