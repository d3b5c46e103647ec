import EncryptedDedup.Lib.Bytes

/-!
# Byte buffers

An array with a position that `put` and `get` move, and big-endian integers of 32 and 64 bits.
-/

namespace EncryptedDedup

/-! ### Parts of an array -/

/-- The array with `s` from the position `p` on. -/
def overwrite (a : Bytes) (p : Nat) (s : Bytes) : Bytes := a.take p ++ s ++ a.drop (p + s.length)

def slice (a : Bytes) (p n : Nat) : Bytes := (a.drop p).take n

def byteAt (a : Bytes) (x : Int) : Option UInt8 := if 0 ≤ x then a[x.toNat]? else none

theorem length_overwrite {a s : Bytes} {p : Nat} (fits : p + s.length ≤ a.length) :
    (overwrite a p s).length = a.length := by
  simp only [overwrite, List.length_append, List.length_take, List.length_drop]
  omega

theorem length_slice {a : Bytes} {p n : Nat} (fits : p + n ≤ a.length) : (slice a p n).length = n := by
  simp only [slice, List.length_take, List.length_drop]
  omega

theorem slice_slice (a : Bytes) (p : Nat) {n o m : Nat} (part : o + m ≤ n) : slice (slice a p n) o m = slice a (p + o) m := by
  rw [slice, slice, slice, List.drop_take, List.drop_drop, List.take_take, Nat.min_eq_left (by omega)]

theorem slice_front {a b : Bytes} {p n m : Nat} (same : slice a p n = slice b p n) (part : m ≤ n) :
    slice a p m = slice b p m := by
  have inside : 0 + m ≤ n := by rwa [Nat.zero_add]
  have front := slice_slice a p inside
  rw [same, slice_slice b p inside] at front
  exact front.symm

theorem slice_between (w s v : Bytes) : slice (w ++ s ++ v) w.length s.length = s := by
  rw [slice, List.append_assoc, List.drop_left, List.take_left]

/-! ### Big-endian integers -/

theorem ofLE_word {n : Nat} {m : Int} (range : ((256 ^ n : Nat) : Int) = m) (x : Int) :
    ((ofLE (toLE n (x % m).toNat) : Nat) : Int) = x % m := by
  have positive : 0 < 256 ^ n := Nat.pow_pos (by decide)
  have low := Int.emod_nonneg x (b := m) (by omega)
  have high := Int.emod_lt_of_pos x (b := m) (by omega)
  rw [ofLE_toLE, Nat.mod_eq_of_lt (by omega)]
  omega

def toBE32 (x : Int) : Bytes := (toLE 4 (x % 2 ^ 32).toNat).reverse

def ofBE32 (b : Bytes) : Int := (ofLE b.reverse : Int).bmod (2 ^ 32)

@[simp] theorem length_toBE32 (x : Int) : (toBE32 x).length = 4 := by
  rw [toBE32, List.length_reverse, length_toLE]

theorem ofBE32_toBE32 (x : Int) : ofBE32 (toBE32 x) = x.bmod (2 ^ 32) := by
  have range : ((256 ^ 4 : Nat) : Int) = 2 ^ 32 := by norm_num
  have reduced := Int.emod_bmod x (2 ^ 32)
  rw [Nat.cast_pow, Nat.cast_ofNat] at reduced
  unfold ofBE32 toBE32
  rw [List.reverse_reverse, ofLE_word range, reduced]

theorem toBE32_inj {x y : Int} (same : toBE32 x = toBE32 y) : x.bmod (2 ^ 32) = y.bmod (2 ^ 32) := by
  rw [← ofBE32_toBE32, ← ofBE32_toBE32, same]

def toBE64 (x : Int) : Bytes := (toLE 8 (x % 2 ^ 64).toNat).reverse

def ofBE64 (b : Bytes) : Int := (ofLE b.reverse : Int).bmod (2 ^ 64)

@[simp] theorem length_toBE64 (x : Int) : (toBE64 x).length = 8 := by
  rw [toBE64, List.length_reverse, length_toLE]

theorem ofBE64_toBE64 (x : Int) : ofBE64 (toBE64 x) = x.bmod (2 ^ 64) := by
  have range : ((256 ^ 8 : Nat) : Int) = 2 ^ 64 := by norm_num
  have reduced := Int.emod_bmod x (2 ^ 64)
  rw [Nat.cast_pow, Nat.cast_ofNat] at reduced
  unfold ofBE64 toBE64
  rw [List.reverse_reverse, ofLE_word range, reduced]

theorem bmod_word {n m : Nat} (small : n < m) : ((n : Int).bmod m % m).toNat = n := by
  rw [Int.bmod_emod, Int.emod_eq_of_lt (Int.natCast_nonneg n) (Int.ofNat_lt.mpr small), Int.toNat_natCast]

theorem toBE64_ofBE64 {b : Bytes} (eight : b.length = 8) : toBE64 (ofBE64 b) = b := by
  have small := ofLE_lt b.reverse
  have whole := toLE_ofLE b.reverse
  rw [List.length_reverse, eight] at small whole
  have range : 256 ^ 8 = 2 ^ 64 := by norm_num
  have word := bmod_word (range ▸ small)
  rw [Nat.cast_pow, Nat.cast_ofNat] at word
  unfold toBE64 ofBE64
  rw [word, whole, List.reverse_reverse]

/-! ### The buffer -/

structure ByteBuffer where
  array : Bytes
  position : Nat

namespace ByteBuffer

def allocate (capacity : Nat) : ByteBuffer := ⟨List.replicate capacity 0, 0⟩

def wrap (array : Bytes) : ByteBuffer := ⟨array, 0⟩

def put (buf : ByteBuffer) (s : Bytes) : Option ByteBuffer :=
  if buf.position + s.length ≤ buf.array.length then
    some ⟨overwrite buf.array buf.position s, buf.position + s.length⟩
  else none

def putAll (buf : ByteBuffer) (parts : List Bytes) : Option ByteBuffer := parts.foldlM put buf

def get (buf : ByteBuffer) (n : Nat) : Option (Bytes × ByteBuffer) :=
  if buf.position + n ≤ buf.array.length then
    some (slice buf.array buf.position n, ⟨buf.array, buf.position + n⟩)
  else none

def getInt (buf : ByteBuffer) : Option (Int × ByteBuffer) := (buf.get 4).map fun r => (ofBE32 r.1, r.2)

def getLong (buf : ByteBuffer) : Option (Int × ByteBuffer) := (buf.get 8).map fun r => (ofBE64 r.1, r.2)

def putLong (buf : ByteBuffer) (x : Int) : Option ByteBuffer := buf.put (toBE64 x)

/-- `putLong(int, long)`; the position stays. -/
def putLongAt (buf : ByteBuffer) (index : Nat) (x : Int) : Option ByteBuffer :=
  if index + 8 ≤ buf.array.length then some ⟨overwrite buf.array index (toBE64 x), buf.position⟩ else none

/-- `position(int)`. -/
def seek (buf : ByteBuffer) (position : Int) : Option ByteBuffer :=
  if 0 ≤ position ∧ position ≤ buf.array.length then some ⟨buf.array, position.toNat⟩ else none

/-- `put(byte[], int, int)`. -/
def putPart (buf : ByteBuffer) (s : Bytes) (offset length : Int) : Option ByteBuffer :=
  if 0 ≤ offset ∧ 0 ≤ length ∧ offset + length ≤ s.length then buf.put (slice s offset.toNat length.toNat) else none

def remaining (buf : ByteBuffer) : Nat := buf.array.length - buf.position

/-! ### Buffers that are written from the start -/

/-- `w` is written, and there is room for `k` bytes. -/
def written (w : Bytes) (k : Nat) : ByteBuffer := ⟨w ++ List.replicate k 0, w.length⟩

theorem allocate_eq (capacity : Nat) : allocate capacity = written [] capacity := rfl

theorem put_written (w s : Bytes) (k : Nat) :
    (written w k).put s = if s.length ≤ k then some (written (w ++ s) (k - s.length)) else none := by
  have room : (written w k).position + s.length ≤ (written w k).array.length ↔ s.length ≤ k := by
    simp only [written, List.length_append, List.length_replicate]
    omega
  rw [put, if_congr room rfl rfl]
  split
  · simp only [written, overwrite, List.take_left, List.length_append, List.drop_append, List.drop_replicate]
    rw [List.drop_eq_nil_of_le (Nat.le_add_right _ _), List.nil_append, Nat.add_sub_cancel_left]
  · rfl

theorem putAll_written (parts : List Bytes) (w : Bytes) (k : Nat) :
    (written w k).putAll parts =
      if parts.flatten.length ≤ k then some (written (w ++ parts.flatten) (k - parts.flatten.length)) else none := by
  induction parts generalizing w k with
  | nil => simp [putAll]
  | cons s parts ih =>
    have step : (written w k).putAll (s :: parts) = (written w k).put s >>= fun buf => buf.putAll parts := by
      rw [putAll, List.foldlM_cons]
      rfl
    rw [step, put_written, List.flatten_cons, List.length_append]
    split
    · rw [Option.bind_eq_bind, Option.bind_some, ih, List.append_assoc, Nat.sub_sub]
      have room : parts.flatten.length ≤ k - s.length ↔ s.length + parts.flatten.length ≤ k := by omega
      rw [if_congr room rfl rfl]
    · rw [if_neg (by omega)]
      rfl

theorem array_written (w : Bytes) : (written w 0).array = w := List.append_nil w

/-! ### Buffers that are read from the start -/

/-- `w` is read, and `v` is left. -/
def read (w v : Bytes) : ByteBuffer := ⟨w ++ v, w.length⟩

theorem wrap_eq (array : Bytes) : wrap array = read [] array := rfl

theorem get_read (w s v : Bytes) : (read w (s ++ v)).get s.length = some (s, read (w ++ s) v) := by
  have room : (read w (s ++ v)).position + s.length ≤ (read w (s ++ v)).array.length := by
    simp only [read, List.length_append]
    omega
  rw [get, if_pos room]
  simp only [read, ← List.append_assoc, slice_between, List.length_append]

theorem getInt_read (w v : Bytes) (x : Int) :
    (read w (toBE32 x ++ v)).getInt = some (x.bmod (2 ^ 32), read (w ++ toBE32 x) v) := by
  have got := get_read w (toBE32 x) v
  rw [length_toBE32] at got
  rw [getInt, got, Option.map_some, ofBE32_toBE32]

theorem getLong_read (w v : Bytes) (x : Int) :
    (read w (toBE64 x ++ v)).getLong = some (x.bmod (2 ^ 64), read (w ++ toBE64 x) v) := by
  have got := get_read w (toBE64 x) v
  rw [length_toBE64] at got
  rw [getLong, got, Option.map_some, ofBE64_toBE64]

end ByteBuffer

end EncryptedDedup
