import EncryptedDedup.Lib.ByteBuffer

/-!
# Growing files

A write behind the end fills the gap with zeros, and a read at the end fills a part of its buffer.
-/

namespace EncryptedDedup

def writeAt (f : Bytes) (p : Nat) (w : Bytes) : Bytes := overwrite (f ++ List.replicate (p - f.length) 0) p w

/-- The buffer after it is read into; the rest of it stays as it was. -/
def readInto (buf f : Bytes) (p : Nat) : Bytes := overwrite buf 0 (slice f p buf.length)

def zeros (n : Nat) : Bytes := List.replicate n 0

@[simp] theorem length_zeros (n : Nat) : (zeros n).length = n := List.length_replicate

@[simp] theorem zeros_zero : zeros 0 = [] := rfl

theorem take_zeros {k n : Nat} (less : k ≤ n) : (zeros n).take k = zeros k := by
  rw [zeros, List.take_replicate, Nat.min_eq_left less, zeros]

theorem slice_slice_take (f : Bytes) (p : Nat) {k n : Nat} (less : k ≤ n) : slice f p k = (slice f p n).take k := by
  rw [slice, slice, List.take_take, Nat.min_eq_left less]

theorem getElem?_slice (f : Bytes) (q n i : Nat) : (slice f q n)[i]? = if i < n then f[q + i]? else none := by
  rw [slice, List.getElem?_take]
  split
  · rw [List.getElem?_drop]
  · rfl

theorem slice_take {f : Bytes} {p n e : Nat} (within : p + n ≤ e) : slice (f.take e) p n = slice f p n := by
  apply List.ext_getElem?
  intro i
  rw [getElem?_slice, getElem?_slice]
  split
  · rw [List.getElem?_take, if_pos (by omega)]
  · rfl

theorem getElem?_writeAt (f : Bytes) (p : Nat) (w : Bytes) (i : Nat) :
    (writeAt f p w)[i]? =
      if i < p then (if i < f.length then f[i]? else some 0) else if i < p + w.length then w[i - p]? else f[i]? := by
  have long : p ≤ (f ++ List.replicate (p - f.length) (0 : UInt8)).length := by
    rw [List.length_append, List.length_replicate]
    omega
  unfold writeAt overwrite
  rw [List.getElem?_append, List.length_append, List.length_take, Nat.min_eq_left long]
  by_cases before : i < p
  · rw [if_pos (by omega), if_pos before, List.getElem?_append_left (by rw [List.length_take]; omega),
      List.getElem?_take, if_pos before, List.getElem?_append]
    split
    · rfl
    · rw [List.getElem?_replicate, if_pos (by omega)]
  · rw [if_neg before]
    by_cases within : i < p + w.length
    · rw [if_pos within, if_pos within, List.getElem?_append_right (by rw [List.length_take]; omega), List.length_take,
        Nat.min_eq_left long]
    · rw [if_neg within, if_neg within, List.getElem?_drop, List.getElem?_append]
      have position : p + w.length + (i - (p + w.length)) = i := by omega
      rw [position]
      split
      · rfl
      · rw [List.getElem?_eq_none (by rw [List.length_replicate]; omega), List.getElem?_eq_none (by omega)]

theorem length_writeAt (f : Bytes) (p : Nat) (w : Bytes) : (writeAt f p w).length = max f.length (p + w.length) := by
  unfold writeAt overwrite
  simp only [List.length_append, List.length_take, List.length_drop, List.length_replicate]
  omega

theorem length_slice_eq (f : Bytes) (q n : Nat) : (slice f q n).length = min n (f.length - q) := by
  rw [slice, List.length_take, List.length_drop]

theorem slice_writeAt_before {f w : Bytes} {p q n : Nat} (apart : q + n ≤ p) :
    slice (writeAt f p w) q n = slice f q n ++ zeros (n - (slice f q n).length) := by
  apply List.ext_getElem?
  intro i
  rw [getElem?_slice, List.getElem?_append, getElem?_slice, length_slice_eq, zeros, List.getElem?_replicate, getElem?_writeAt]
  by_cases inside : i < n
  · rw [if_pos inside, if_pos (by omega : q + i < p)]
    by_cases there : q + i < f.length
    · rw [if_pos there, if_pos (by omega), if_pos inside]
    · rw [if_neg there, if_neg (by omega), if_pos (by omega)]
  · rw [if_neg inside, if_neg (by omega), if_neg (by omega)]

theorem slice_writeAt_here {f w : Bytes} {p n : Nat} (fits : w.length ≤ n) :
    slice (writeAt f p w) p n = w ++ slice f (p + w.length) (n - w.length) := by
  apply List.ext_getElem?
  intro i
  rw [getElem?_slice, List.getElem?_append, getElem?_slice, getElem?_writeAt]
  by_cases inside : i < n
  · rw [if_pos inside, if_neg (by omega : ¬ p + i < p), Nat.add_sub_cancel_left]
    by_cases here : i < w.length
    · rw [if_pos (by omega), if_pos here]
    · rw [if_neg (by omega), if_neg here, if_pos (by omega)]
      congr 1
      omega
  · rw [if_neg inside, if_neg (by omega), if_neg (by omega)]

theorem slice_writeAt_after {f w : Bytes} {p q n : Nat} (apart : p + w.length ≤ q) :
    slice (writeAt f p w) q n = slice f q n := by
  apply List.ext_getElem?
  intro i
  rw [getElem?_slice, getElem?_slice, getElem?_writeAt, if_neg (by omega : ¬ q + i < p),
    if_neg (by omega : ¬ q + i < p + w.length)]

@[simp] theorem length_readInto (buf f : Bytes) (p : Nat) : (readInto buf f p).length = buf.length := by
  unfold readInto
  rw [length_overwrite]
  rw [length_slice_eq]
  omega

theorem readInto_eq (buf f : Bytes) (p : Nat) :
    readInto buf f p = slice f p buf.length ++ buf.drop (slice f p buf.length).length := by
  rw [readInto, overwrite, List.take_zero, List.nil_append, Nat.zero_add]

theorem readInto_whole {buf f : Bytes} {p n : Nat} (wide : buf.length = n) (full : (slice f p n).length = n) :
    readInto buf f p = slice f p n := by
  rw [readInto_eq, wide, full, ← wide, List.drop_length, List.append_nil]

theorem readInto_full {f : Bytes} {p n : Nat} (full : (slice f p n).length = n) : readInto (zeros n) f p = slice f p n :=
  readInto_whole (length_zeros n) full

theorem readInto_end {buf f : Bytes} {p : Nat} (behind : f.length ≤ p) : readInto buf f p = buf := by
  have nothing : slice f p buf.length = [] := List.eq_nil_of_length_eq_zero (by rw [length_slice_eq]; omega)
  rw [readInto_eq, nothing]
  rfl

end EncryptedDedup
