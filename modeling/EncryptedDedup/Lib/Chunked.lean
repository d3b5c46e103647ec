import EncryptedDedup.Lib.Overlay

/-!
# Arrays kept in chunks

The bytes of a file are kept in arrays of `C` bytes, one at every multiple of `C`.
-/

namespace EncryptedDedup

/-! ### Pieces -/

/-- Bytes of the array at `base`, from its index `start` on. -/
structure ChunkPiece where
  base : Int
  start : Int
  bytes : Bytes
  deriving DecidableEq, Repr

def ChunkPiece.Within (C : Nat) (p : ChunkPiece) : Prop :=
  (C : Int) ∣ p.base ∧ 0 ≤ p.start ∧ 0 < p.bytes.length ∧ p.start + p.bytes.length ≤ C

/-- The pieces follow one another from `x` to `y`, each inside one array. -/
def Tiles (C : Nat) : Int → List ChunkPiece → Int → Prop
  | x, [], y => x = y
  | x, p :: ps, y => p.Within C ∧ p.base + p.start = x ∧ Tiles C (x + p.bytes.length) ps y

def joined (ps : List ChunkPiece) : Bytes := ps.flatMap ChunkPiece.bytes

@[simp] theorem joined_concat (ps : List ChunkPiece) (p : ChunkPiece) : joined (ps ++ [p]) = joined ps ++ p.bytes := by
  simp [joined]

theorem Tiles.concat {C : Nat} {x y : Int} {ps : List ChunkPiece} (tiled : Tiles C x ps y) {p : ChunkPiece}
    (within : p.Within C) (next : p.base + p.start = y) : Tiles C x (ps ++ [p]) (y + p.bytes.length) := by
  induction ps generalizing x with
  | nil =>
    unfold Tiles at tiled
    subst tiled
    exact ⟨within, next, rfl⟩
  | cons q ps ih =>
    unfold Tiles at tiled
    exact ⟨tiled.1, tiled.2.1, ih tiled.2.2⟩

theorem Tiles.length {C : Nat} {x y : Int} {ps : List ChunkPiece} (tiled : Tiles C x ps y) :
    x + (joined ps).length = y := by
  induction ps generalizing x with
  | nil =>
    unfold Tiles at tiled
    simpa [joined] using tiled
  | cons p ps ih =>
    unfold Tiles at tiled
    have rest := ih tiled.2.2
    have split : (joined (p :: ps)).length = p.bytes.length + (joined ps).length := by simp [joined]
    omega

/-! ### The arrays -/

structure Chunked (C : Nat) where
  array : Int → Bytes
  length_array : ∀ base, (array base).length = C

namespace Chunked

variable {C : Nat}

def blank (C : Nat) : Chunked C := ⟨fun _ => List.replicate C 0, fun _ => List.length_replicate⟩

def byte (f : Chunked C) (x : Int) : UInt8 := (byteAt (f.array (x / C * C)) (x % C)).getD 0

def replace (f : Chunked C) (base : Int) (a : Bytes) (size : a.length = C) : Chunked C where
  array b := if b = base then a else f.array b
  length_array b := by
    split
    · exact size
    · exact f.length_array b

def put (f : Chunked C) (base start : Int) (s : Bytes) : Option (Chunked C) :=
  if fits : 0 ≤ start ∧ start + s.length ≤ C then
    some (f.replace base (overwrite (f.array base) start.toNat s)
      ((length_overwrite (by rw [f.length_array]; omega)).trans (f.length_array base)))
  else none

/-- Bytes of the array at `base`, if it has so many. -/
def get (f : Chunked C) (base start n : Int) : Option Bytes :=
  if 0 ≤ start ∧ 0 ≤ n ∧ start + n ≤ C then some (slice (f.array base) start.toNat n.toNat) else none

variable {f g : Chunked C} {base start : Int}

theorem array_replace (f : Chunked C) (base : Int) (a : Bytes) (size : a.length = C) (b : Int) :
    (f.replace base a size).array b = if b = base then a else f.array b := rfl

theorem byte_of_base (aligned : (C : Int) ∣ base) {x : Int} (low : base ≤ x) (high : x < base + C) :
    f.byte x = (byteAt (f.array base) (x - base)).getD 0 := by
  obtain ⟨k, rfl⟩ := aligned
  have index : x = (x - C * k) + C * k := by omega
  have quotient : x / C = k := by
    rw [index, Int.add_mul_ediv_left _ _ (by omega), Int.ediv_eq_zero_of_lt (by omega) (by omega), Int.zero_add]
  have remainder : x % C = x - C * k := by
    have split := Int.emod_add_mul_ediv x C
    rw [quotient] at split
    omega
  rw [byte, quotient, remainder, Int.mul_comm k C]

theorem base_ne (size : 0 < C) {x : Int} (outside : ¬ (base ≤ x ∧ x < base + C)) : x / C * C ≠ base := by
  intro same
  have split := Int.emod_add_mul_ediv x C
  have low := Int.emod_nonneg x (b := C) (by omega)
  have high := Int.emod_lt_of_pos x (b := C) (by omega)
  rw [Int.mul_comm] at same
  omega

theorem byte_put (size : 0 < C) {s : Bytes} (aligned : (C : Int) ∣ base) (done : f.put base start s = some g) :
    (fun x => some (g.byte x)) = written (fun x => some (f.byte x)) ⟨s, base + start⟩ := by
  unfold put at done
  split at done
  · rename_i fits
    obtain rfl := Option.some.inj done
    have room : start.toNat + s.length ≤ (f.array base).length := by
      rw [f.length_array]
      omega
    funext x
    rw [written, patch]
    by_cases here : base ≤ x ∧ x < base + C
    · rw [byte_of_base aligned here.1 here.2, array_replace, if_pos rfl, byteAt_overwrite room]
      by_cases covered : base + start ≤ x ∧ x < base + start + s.length
      · have index : x - base - start.toNat = x - (base + start) := by omega
        rw [if_pos (by omega), if_pos (Write.covers_iff.mpr covered), index]
        rfl
      · rw [if_neg (by omega), if_neg (mt Write.covers_iff.mp covered), byte_of_base aligned here.1 here.2]
    · have outside : ¬ (base + start ≤ x ∧ x < base + start + s.length) := by omega
      rw [if_neg (mt Write.covers_iff.mp outside), byte, array_replace, if_neg (base_ne size here), byte]
  · cases done

theorem get_byte {n : Int} {r : Bytes} (aligned : (C : Int) ∣ base) (done : f.get base start n = some r) :
    (r.length : Int) = n ∧ ∀ i, 0 ≤ i → i < n → byteAt r i = some (f.byte (base + start + i)) := by
  unfold get at done
  split at done
  · rename_i fits
    obtain rfl := Option.some.inj done
    have room : start.toNat + n.toNat ≤ (f.array base).length := by
      rw [f.length_array]
      omega
    refine ⟨by rw [length_slice room]; omega, fun i low high => ?_⟩
    have index : (start.toNat : Int) + i = base + start + i - base := by omega
    rw [byteAt_slice, if_pos ⟨low, by omega⟩, byte_of_base aligned (by omega) (by omega), index]
    obtain ⟨v, found⟩ := @byteAt_of_lt (f.array base) (base + start + i - base) (by omega) (by rw [f.length_array]; omega)
    rw [found, Option.getD_some]
  · cases done

theorem put_isSome (f : Chunked C) (base : Int) {s : Bytes} (low : 0 ≤ start) (high : start + s.length ≤ C) :
    ∃ g, f.put base start s = some g :=
  ⟨_, dif_pos ⟨low, high⟩⟩

theorem put_fits {s : Bytes} (done : f.put base start s = some g) : 0 ≤ start ∧ start + s.length ≤ C := by
  unfold put at done
  split at done
  · assumption
  · cases done

theorem get_fits {n : Int} {r : Bytes} (done : f.get base start n = some r) : 0 ≤ start ∧ start + n ≤ C := by
  unfold get at done
  split at done
  · rename_i fits
    exact ⟨fits.1, fits.2.2⟩
  · cases done

end Chunked

end EncryptedDedup
