import EncryptedDedup.Lib.ByteBuffer
import EncryptedDedup.Lib.Patches

/-!
# Writes over a file

A file gives a byte at some positions. A write gives new bytes to a range of positions.
-/

namespace EncryptedDedup

/-! ### Arrays as files -/

theorem byteAt_of_lt {a : Bytes} {x : Int} (low : 0 ≤ x) (high : x < a.length) :
    ∃ v, byteAt a x = some v := by
  rw [byteAt, if_pos low]
  exact ⟨_, List.getElem?_eq_getElem (by omega)⟩

theorem byteAt_eq_none {a : Bytes} {x : Int} (outside : ¬ (0 ≤ x ∧ x < a.length)) : byteAt a x = none := by
  rw [byteAt]
  split
  · exact List.getElem?_eq_none (by omega)
  · rfl

theorem byteAt_append (a b : Bytes) (x : Int) :
    byteAt (a ++ b) x = if x < a.length then byteAt a x else byteAt b (x - a.length) := by
  by_cases low : 0 ≤ x
  · by_cases first : x < a.length
    · rw [if_pos first, byteAt, byteAt, if_pos low, if_pos low, List.getElem?_append_left (by omega)]
    · have index : x.toNat - a.length = (x - a.length).toNat := by omega
      rw [if_neg first, byteAt, byteAt, if_pos low, if_pos (by omega), List.getElem?_append_right (by omega), index]
  · rw [if_pos (by omega), byteAt, byteAt, if_neg low, if_neg low]

theorem byteAt_overwrite {a s : Bytes} {p : Nat} (fits : p + s.length ≤ a.length) (x : Int) :
    byteAt (overwrite a p s) x = if p ≤ x ∧ x < p + s.length then byteAt s (x - p) else byteAt a x := by
  have front : (a.take p).length = p := List.length_take_of_le (by omega)
  rw [overwrite, List.append_assoc, byteAt_append, byteAt_append, front]
  by_cases before : x < p
  · rw [if_pos before, if_neg (by omega), byteAt, byteAt]
    split
    · rw [List.getElem?_take, if_pos (by omega)]
    · rfl
  · rw [if_neg before]
    by_cases inside : x < p + s.length
    · rw [if_pos (by omega), if_pos ⟨by omega, inside⟩]
    · have index : p + s.length + (x - p - s.length).toNat = x.toNat := by omega
      rw [if_neg (by omega), if_neg (by omega), byteAt, byteAt, if_pos (by omega), if_pos (by omega),
        List.getElem?_drop, index]

theorem byteAt_slice {a : Bytes} {p n : Nat} (x : Int) :
    byteAt (slice a p n) x = if 0 ≤ x ∧ x < n then byteAt a (p + x) else none := by
  by_cases low : 0 ≤ x
  · have index : ((p : Int) + x).toNat = p + x.toNat := by omega
    have after : 0 ≤ (p : Int) + x := by omega
    rw [slice, byteAt, byteAt, if_pos low, if_pos after, List.getElem?_take, List.getElem?_drop, index]
    by_cases high : x < n
    · rw [if_pos (show x.toNat < n by omega), if_pos ⟨low, high⟩]
    · rw [if_neg (show ¬ x.toNat < n by omega), if_neg fun both => high both.2]
  · rw [byteAt, if_neg low, if_neg (by omega)]

theorem byteAt_replicate (n : Nat) (v : UInt8) (x : Int) :
    byteAt (List.replicate n v) x = if 0 ≤ x ∧ x < n then some v else none := by
  by_cases low : 0 ≤ x
  · rw [byteAt, if_pos low, List.getElem?_replicate]
    by_cases high : x < n
    · rw [if_pos (by omega), if_pos ⟨low, high⟩]
    · rw [if_neg (by omega), if_neg (by omega)]
  · rw [byteAt, if_neg low, if_neg (by omega)]

theorem byteAt_ext {a b : Bytes} (same : ∀ x, byteAt a x = byteAt b x) : a = b := by
  apply List.ext_getElem?
  intro i
  have at_ := same i
  rwa [byteAt, byteAt, if_pos (Int.natCast_nonneg i), if_pos (Int.natCast_nonneg i), Int.toNat_natCast] at at_

/-! ### Writes -/

structure Write where
  bytes : Bytes
  pos : Int

namespace Write

def covers (w : Write) (x : Int) : Bool := w.pos ≤ x ∧ x < w.pos + w.bytes.length

def value (w : Write) (x : Int) : UInt8 := (byteAt w.bytes (x - w.pos)).getD 0

theorem covers_iff {w : Write} {x : Int} : w.covers x = true ↔ w.pos ≤ x ∧ x < w.pos + w.bytes.length :=
  decide_eq_true_iff

theorem byteAt_of_covers {w : Write} {x : Int} (covered : w.covers x = true) :
    byteAt w.bytes (x - w.pos) = some (w.value x) := by
  rw [covers_iff] at covered
  obtain ⟨v, found⟩ := @byteAt_of_lt w.bytes (x - w.pos) (by omega) (by omega)
  rw [value, found, Option.getD_some]

end Write

def written (f : Int → Option UInt8) (w : Write) : Int → Option UInt8 := patch Write.covers Write.value f w

/-- The file after writes, in the order in which they are made. -/
def overlay (f : Int → Option UInt8) (ws : List Write) : Int → Option UInt8 := latest Write.covers Write.value f ws

theorem foldl_written (f : Int → Option UInt8) (ws : List Write) : ws.foldl written f = overlay f ws :=
  foldl_patch Write.covers Write.value ws f

theorem overlay_nil (f : Int → Option UInt8) : overlay f [] = f := rfl

theorem overlay_cons (f : Int → Option UInt8) (w : Write) (ws : List Write) :
    overlay f (w :: ws) = overlay (written f w) ws := by
  rw [← foldl_written, ← foldl_written, List.foldl_cons]

theorem overlay_append (f : Int → Option UInt8) (ws vs : List Write) :
    overlay f (ws ++ vs) = overlay (overlay f ws) vs := by
  rw [← foldl_written, ← foldl_written, ← foldl_written, List.foldl_append]

theorem overlay_isSome {f : Int → Option UInt8} {x : Int} (there : (f x).isSome) (ws : List Write) :
    (overlay f ws x).isSome := by
  rw [overlay, latest]
  split
  · rfl
  · exact there

theorem written_append (f : Int → Option UInt8) (a b : Bytes) (pos : Int) :
    written (written f ⟨a, pos⟩) ⟨b, pos + a.length⟩ = written f ⟨a ++ b, pos⟩ := by
  funext x
  simp only [written, patch]
  by_cases second : pos + a.length ≤ x ∧ x < pos + a.length + b.length
  · have both : pos ≤ x ∧ x < pos + (a ++ b).length := by
      rw [List.length_append]
      omega
    have shift : x - pos - a.length = x - (pos + a.length) := by omega
    rw [if_pos (Write.covers_iff.mpr second), if_pos (Write.covers_iff.mpr both), Write.value, Write.value]
    dsimp only
    rw [byteAt_append, if_neg (by omega), shift]
  · rw [if_neg (mt Write.covers_iff.mp second)]
    by_cases first : pos ≤ x ∧ x < pos + a.length
    · have both : pos ≤ x ∧ x < pos + (a ++ b).length := by
        rw [List.length_append]
        omega
      rw [if_pos (Write.covers_iff.mpr first), if_pos (Write.covers_iff.mpr both), Write.value, Write.value]
      dsimp only
      rw [byteAt_append, if_pos (by omega)]
    · have neither : ¬ (pos ≤ x ∧ x < pos + (a ++ b).length) := by
        rw [List.length_append]
        omega
      rw [if_neg (mt Write.covers_iff.mp first), if_neg (mt Write.covers_iff.mp neither)]

/-- A write is lost under a longer one at the same position. -/
theorem written_under (f : Int → Option UInt8) {a b : Bytes} (shorter : a.length ≤ b.length) (pos : Int) :
    written (written f ⟨a, pos⟩) ⟨b, pos⟩ = written f ⟨b, pos⟩ := by
  funext x
  simp only [written, patch]
  by_cases second : pos ≤ x ∧ x < pos + b.length
  · rw [if_pos (Write.covers_iff.mpr second), if_pos (Write.covers_iff.mpr second)]
  · have first : ¬ (pos ≤ x ∧ x < pos + a.length) := by omega
    rw [if_neg (mt Write.covers_iff.mp second), if_neg (mt Write.covers_iff.mp first),
      if_neg (mt Write.covers_iff.mp second)]

theorem written_empty (f : Int → Option UInt8) (pos : Int) : written f ⟨[], pos⟩ = f := by
  funext x
  have nowhere : ¬ (pos ≤ x ∧ x < pos + ([] : Bytes).length) := by
    rw [List.length_nil]
    omega
  rw [written, patch, if_neg (mt Write.covers_iff.mp nowhere)]

theorem byteAt_overwrite_eq {a s : Bytes} {p : Nat} (fits : p + s.length ≤ a.length) :
    byteAt (overwrite a p s) = written (byteAt a) ⟨s, p⟩ := by
  funext x
  rw [byteAt_overwrite fits, written, patch]
  by_cases covered : (p : Int) ≤ x ∧ x < p + s.length
  · have covers := @Write.covers_iff ⟨s, p⟩ x |>.mpr covered
    rw [if_pos covered, if_pos covers]
    exact Write.byteAt_of_covers covers
  · rw [if_neg covered, if_neg (mt Write.covers_iff.mp covered)]

theorem overwrite_overwrite {a s v : Bytes} {p : Nat} (fits : p + s.length + v.length ≤ a.length) :
    overwrite (overwrite a p s) (p + s.length) v = overwrite a p (s ++ v) := by
  have room : p + s.length + v.length ≤ (overwrite a p s).length := by
    rw [length_overwrite (by omega)]
    exact fits
  apply byteAt_ext
  intro x
  rw [byteAt_overwrite_eq room, byteAt_overwrite_eq (by omega), byteAt_overwrite_eq (by rw [List.length_append]; omega)]
  exact congrFun (written_append (byteAt a) s v p) x

theorem slice_overwrite {a s : Bytes} {p : Nat} (fits : p + s.length ≤ a.length) : slice (overwrite a p s) p s.length = s := by
  have front : (a.take p).length = p := List.length_take_of_le (by omega)
  have whole := slice_between (a.take p) s (a.drop (p + s.length))
  rwa [front] at whole

theorem slice_overwrite_apart {a s : Bytes} {p q n : Nat} (fits : p + s.length ≤ a.length)
    (apart : q + n ≤ p ∨ p + s.length ≤ q) : slice (overwrite a p s) q n = slice a q n := by
  apply byteAt_ext
  intro x
  rw [byteAt_slice, byteAt_slice, byteAt_overwrite fits]
  split
  · rw [if_neg (by omega)]
  · rfl

theorem overwrite_slice {a : Bytes} {p n : Nat} (fits : p + n ≤ a.length) : overwrite a p (slice a p n) = a := by
  have length : (slice a p n).length = n := by
    rw [slice, List.length_take, List.length_drop]
    omega
  apply byteAt_ext
  intro x
  rw [byteAt_overwrite (by rwa [length]), length]
  by_cases inside : (p : Int) ≤ x ∧ x < p + n
  · rw [if_pos inside, byteAt_slice, if_pos (by omega)]
    congr 1
    omega
  · rw [if_neg inside]

end EncryptedDedup
