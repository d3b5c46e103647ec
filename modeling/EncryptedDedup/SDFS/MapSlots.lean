import EncryptedDedup.Lib.Fallible
import EncryptedDedup.SDFS.LongByteArrayMap
import EncryptedDedup.SDFS.RecordCodec

/-!
# Slots of a map

Every slot of a map is free, or starts with a record. What stands behind the record does not matter.
-/

namespace EncryptedDedup

/-! ### Bytes behind a buffer -/

namespace ByteBuffer

def extend (buf : ByteBuffer) (tail : Bytes) : ByteBuffer := ⟨buf.array ++ tail, buf.position⟩

theorem get_extend {buf buf' : ByteBuffer} {n : Nat} {b : Bytes} (got : buf.get n = some (b, buf')) (tail : Bytes) :
    (buf.extend tail).get n = some (b, buf'.extend tail) := by
  unfold get at got
  split at got
  · rename_i room
    obtain ⟨rfl, rfl⟩ := Prod.mk.inj (Option.some.inj got)
    have room' : (buf.extend tail).position + n ≤ (buf.extend tail).array.length := by
      simp only [extend, List.length_append]
      omega
    unfold get
    rw [if_pos room']
    simp only [extend, slice]
    rw [List.drop_append_of_le_length (by omega), List.take_append_of_le_length (by rw [List.length_drop]; omega)]
  · cases got

theorem getInt_extend {buf buf' : ByteBuffer} {x : Int} (got : buf.getInt = some (x, buf')) (tail : Bytes) :
    (buf.extend tail).getInt = some (x, buf'.extend tail) := by
  obtain ⟨r, read, same⟩ := Option.map_eq_some_iff.mp got
  obtain ⟨rfl, rfl⟩ := Prod.mk.inj same
  rw [getInt, get_extend read, Option.map_some]

theorem get_within (buf : ByteBuffer) {n : Nat} (room : buf.position + n ≤ buf.array.length) :
    ∃ b, buf.get n = some (b, ⟨buf.array, buf.position + n⟩) ∧ b.length = n :=
  ⟨_, if_pos room, length_slice room⟩

theorem getInt_within (buf : ByteBuffer) (room : buf.position + 4 ≤ buf.array.length) :
    ∃ x, buf.getInt = some (x, ⟨buf.array, buf.position + 4⟩) := by
  obtain ⟨b, got, -⟩ := get_within buf room
  exact ⟨ofBE32 b, by rw [getInt, got, Option.map_some]⟩

theorem put_length {buf buf' : ByteBuffer} {s : Bytes} (done : buf.put s = some buf') :
    buf'.array.length = buf.array.length := by
  unfold put at done
  split at done
  · rename_i room
    rw [← Option.some.inj done]
    exact length_overwrite room
  · cases done

theorem putAll_length {buf buf' : ByteBuffer} {parts : List Bytes} (done : buf.putAll parts = some buf') :
    buf'.array.length = buf.array.length :=
  @foldlM_keep _ _ put (fun b => b.array.length = buf.array.length)
    (fun _ _ _ step same => (put_length step).trans same) _ _ _ done rfl

end ByteBuffer

namespace SDFS

theorem orThrow_bind_ok {α β : Type} {x : Option α} {e : Thrown} {f : α → Except Thrown β} {b : β}
    (done : (orThrow x e >>= f) = .ok b) : ∃ a, x = some a ∧ f a = .ok b := by
  cases x with
  | none => cases done
  | some a => exact ⟨a, rfl, done⟩

theorem bind_ok {α β : Type} {x : Except Thrown α} {f : α → Except Thrown β} {b : β}
    (done : (x >>= f) = .ok b) : ∃ a, x = .ok a ∧ f a = .ok b := by
  cases x with
  | error e => cases done
  | ok a => exact ⟨a, rfl, done⟩

variable {K : Config}

namespace SparseDataChunk

theorem getEntries_extend {n : Nat} {c c' : SparseDataChunk} {buf buf' : ByteBuffer}
    (done : getEntries K c buf n = .ok (c', buf')) (tail : Bytes) :
    getEntries K c (buf.extend tail) n = .ok (c', buf'.extend tail) := by
  induction n generalizing c buf with
  | zero =>
    obtain ⟨rfl, rfl⟩ := Prod.mk.inj (Except.ok.inj done)
    rfl
  | succ n ih =>
    unfold getEntries at done
    obtain ⟨⟨b, buf₁⟩, got, done⟩ := orThrow_bind_ok done
    obtain ⟨p, decoded, done⟩ := bind_ok done
    unfold getEntries
    rw [ByteBuffer.get_extend got, orThrow_some]
    dsimp only
    rw [decoded]
    exact ih done

theorem marshall2_extend {c c' : SparseDataChunk} {raw : Bytes} (done : marshall2 K c raw = .ok c') (tail : Bytes) :
    marshall2 K c (raw ++ tail) = .ok c' := by
  have wrapped : ByteBuffer.wrap (raw ++ tail) = (ByteBuffer.wrap raw).extend tail := rfl
  unfold marshall2 at done
  obtain ⟨⟨flags, buf₁⟩, first, done⟩ := orThrow_bind_ok done
  obtain ⟨⟨length, buf₂⟩, second, done⟩ := orThrow_bind_ok done
  obtain ⟨⟨zlen, buf₃⟩, third, done⟩ := orThrow_bind_ok done
  obtain ⟨⟨c₁, buf₄⟩, entries, done⟩ := bind_ok done
  obtain ⟨⟨doop, buf₅⟩, last, done⟩ := orThrow_bind_ok done
  unfold marshall2
  dsimp only
  rw [wrapped, ByteBuffer.get_extend first, orThrow_some]
  dsimp only
  rw [ByteBuffer.getInt_extend second, orThrow_some]
  dsimp only
  rw [ByteBuffer.getInt_extend third, orThrow_some]
  dsimp only
  rw [getEntries_extend entries]
  change (orThrow (buf₄.extend tail).getInt .bufferUnderflow >>= _) = _
  rw [ByteBuffer.getInt_extend last]
  exact done

end SparseDataChunk

/-! ### Decoding in the older versions -/

namespace SparseDataChunk

theorem length_getBytes0 {c : SparseDataChunk} {raw : Bytes} (done : c.getBytes0 K = .ok raw) :
    raw.length = K.freeLength := by
  unfold getBytes0 at done
  obtain ⟨buf₁, first, done⟩ := orThrow_bind_ok done
  obtain ⟨h, -, done⟩ := orThrow_bind_ok done
  obtain ⟨buf₂, second, done⟩ := orThrow_bind_ok done
  rw [← Except.ok.inj done, ByteBuffer.putAll_length second, ByteBuffer.put_length first]
  exact List.length_replicate

theorem length_getBytes1 {c : SparseDataChunk} {raw : Bytes} (done : c.getBytes1 K = .ok raw) :
    raw.length = K.v1arrayLength := by
  unfold getBytes1 at done
  obtain ⟨buf₁, first, done⟩ := orThrow_bind_ok done
  obtain ⟨buf₂, second, done⟩ := orThrow_bind_ok done
  obtain ⟨buf₃, third, done⟩ := orThrow_bind_ok done
  rw [← Except.ok.inj done, ByteBuffer.putAll_length third, ByteBuffer.putAll_length second, ByteBuffer.put_length first]
  exact List.length_replicate

theorem marshall0_total {raw : Bytes} (long : 1 + K.hashLength + 1 + 8 ≤ raw.length) (c : SparseDataChunk) :
    ∃ c', marshall0 K c raw = .ok c' := by
  obtain ⟨b, first, -⟩ := ByteBuffer.get_within ⟨raw, 0⟩ (n := 1) (by dsimp only; omega)
  obtain ⟨hash, second, -⟩ := ByteBuffer.get_within ⟨raw, 0 + 1⟩ (n := K.hashLength) (by dsimp only; omega)
  obtain ⟨z, third, -⟩ := ByteBuffer.get_within ⟨raw, 0 + 1 + K.hashLength⟩ (n := 1) (by dsimp only; omega)
  obtain ⟨hashloc, fourth, -⟩ := ByteBuffer.get_within ⟨raw, 0 + 1 + K.hashLength + 1⟩ (n := 8)
    (by dsimp only; omega)
  unfold marshall0 ByteBuffer.wrap
  dsimp only
  rw [first, orThrow_some]
  dsimp only
  rw [second, orThrow_some]
  dsimp only
  rw [third, orThrow_some]
  dsimp only
  rw [fourth, orThrow_some]
  exact ⟨_, rfl⟩

theorem getCluster_total (hb hl : ByteBuffer) (z left : Nat) (ar : Fingers)
    (hashes : hb.position + K.hashLength * left ≤ hb.array.length) (locs : hl.position + 8 * left ≤ hl.array.length) :
    ∃ ar', getCluster K hb hl z ar left = .ok ar' := by
  induction left generalizing hb hl z ar with
  | zero => exact ⟨ar, rfl⟩
  | succ left ih =>
    rw [Nat.mul_succ] at hashes
    obtain ⟨loc, first, -⟩ := ByteBuffer.get_within hl (n := 8) (by omega)
    obtain ⟨hash, second, -⟩ := ByteBuffer.get_within hb (n := K.hashLength) (by omega)
    unfold getCluster
    rw [first, orThrow_some]
    dsimp only
    rw [second, orThrow_some]
    dsimp only
    split
    · exact ih _ _ _ _ (by dsimp only; omega) (by dsimp only; omega)
    · exact ⟨ar, rfl⟩

theorem marshall1_total {raw : Bytes} (long : raw.length = K.v1arrayLength) (c : SparseDataChunk) :
    ∃ c', marshall1 K c raw = .ok c' := by
  have lengths : raw.length = 4 + (K.hashLength * K.maxHashCluster + 8 * K.maxHashCluster) := by
    rw [long, Config.v1arrayLength, Nat.add_mul]
  obtain ⟨doop, first⟩ := ByteBuffer.getInt_within ⟨raw, 0⟩ (by dsimp only; omega)
  obtain ⟨hash, second, wide⟩ := ByteBuffer.get_within ⟨raw, 0 + 4⟩ (n := K.hashLength * K.maxHashCluster)
    (by dsimp only; omega)
  obtain ⟨hashlocs, third, wide'⟩ := ByteBuffer.get_within
    ⟨raw, 0 + 4 + K.hashLength * K.maxHashCluster⟩ (n := 8 * K.maxHashCluster) (by dsimp only; omega)
  obtain ⟨ar, cluster⟩ := getCluster_total (K := K) (.wrap hash) (.wrap hashlocs) 0 K.maxHashCluster
    Fingers.empty (by simp [ByteBuffer.wrap, wide]) (by simp [ByteBuffer.wrap, wide'])
  unfold marshall1
  rw [ByteBuffer.wrap]
  dsimp only
  rw [first, orThrow_some]
  dsimp only
  rw [second, orThrow_some]
  dsimp only
  rw [third, orThrow_some]
  dsimp only
  rw [cluster]
  exact ⟨_, rfl⟩

end SparseDataChunk

/-! ### Lengths -/

/-- Settings with which the arrays of the maps have the lengths that are meant. -/
structure Config.Usable (K : Config) : Prop where
  chunk : 0 < K.chunkLength
  small : K.chunkLength < 2 ^ 31
  cluster : 0 < K.maxHashCluster
  lengths : 1 + 4 + 4 + 4 + K.bal * (2 * K.maxHashCluster) < 2 ^ 31

theorem Config.Usable.cluster_lt (usable : K.Usable) : 2 * K.maxHashCluster < 2 ^ 31 := by
  have wide : 2 * K.maxHashCluster ≤ K.bal * (2 * K.maxHashCluster) :=
    Nat.le_mul_of_pos_left _ (by unfold Config.bal; omega)
  have lengths := usable.lengths
  omega

theorem Config.Usable.maxElementsPerAr (usable : K.Usable) : K.maxElementsPerAr = (2 * K.maxHashCluster : Nat) := by
  have few := usable.cluster_lt
  unfold Config.maxElementsPerAr
  rw [int_eq (by omega) (by omega)]
  push_cast
  omega

theorem Config.Usable.v2arrayLength (usable : K.Usable) :
    K.v2arrayLength = 13 + K.bal * (2 * K.maxHashCluster) := by
  have lengths := usable.lengths
  unfold Config.v2arrayLength
  rw [usable.maxElementsPerAr, int_eq (by omega) (by exact_mod_cast lengths)]
  have cast : (1 + 4 + 4 + 4 + (K.bal : Int) * ((2 * K.maxHashCluster : Nat) : Int)) =
      ((13 + K.bal * (2 * K.maxHashCluster) : Nat) : Int) := by
    push_cast
    rfl
  rw [cast, Int.toNat_natCast]

namespace LongByteArrayMap

theorem usable_small : (⟨16384, 16, 4, 4095⟩ : Config).Usable := ⟨by decide, by decide, by decide, by decide⟩

theorem arrayLength_modern {version : UInt8} (modern : 1 < version) : arrayLength K version = K.v2arrayLength := by
  have first : version ≠ 0 := by
    rintro rfl
    exact absurd modern (by decide)
  have second : version ≠ 1 := by
    rintro rfl
    exact absurd modern (by decide)
  rw [arrayLength, if_neg first, if_neg second]

theorem version_cases (version : UInt8) : version = 0 ∨ version = 1 ∨ 1 < version := by
  rcases version with ⟨⟨v, bound⟩⟩
  simp only [UInt8.lt_iff_toNat_lt, ← UInt8.toNat_inj]
  simp
  omega

theorem arrayLength_pos (usable : K.Usable) (version : UInt8) : 0 < arrayLength K version := by
  rcases version_cases version with rfl | rfl | modern
  · have cluster := usable.cluster
    have wide : 0 < (1 + K.hashLength + 1 + 8) * K.maxHashCluster := Nat.mul_pos (by omega) cluster
    exact wide
  · have length : arrayLength K 1 = 4 + (K.hashLength + 8) * K.maxHashCluster := rfl
    omega
  · rw [arrayLength_modern modern, usable.v2arrayLength]
    omega

/-! ### Records -/

theorem ofBE32_zeros {n : Nat} (long : 5 ≤ n) : ofBE32 (slice (zeros n) 1 4) = 0 := by
  rw [slice, zeros, List.drop_replicate, List.take_replicate, Nat.min_eq_left (by omega)]
  decide

structure Stored (K : Config) (version : UInt8) (raw : Bytes) (ck : SparseDataChunk) : Prop where
  decodes : SparseDataChunk.ofBytes K raw version = .ok ck
  fits : raw.length ≤ arrayLength K version
  nonzero : raw ≠ zeros raw.length
  header : 1 < version → 5 ≤ raw.length ∧ ofBE32 (slice raw 1 4) = raw.length
  whole : ¬ 1 < version → raw.length = arrayLength K version

theorem Stored.extend {version : UInt8} {raw : Bytes} {ck : SparseDataChunk} (stored : Stored K version raw ck)
    {tail : Bytes} (within : (raw ++ tail).length ≤ arrayLength K version) :
    SparseDataChunk.ofBytes K (raw ++ tail) version = .ok ck := by
  by_cases modern : 1 < version
  · have decodes := stored.decodes
    have first : version ≠ 0 := by
      rintro rfl
      exact absurd modern (by decide)
    have second : version ≠ 1 := by
      rintro rfl
      exact absurd modern (by decide)
    simp only [SparseDataChunk.ofBytes, SparseDataChunk.marshall, if_neg first, if_neg second] at decodes ⊢
    exact SparseDataChunk.marshall2_extend decodes tail
  · have whole := stored.whole modern
    have nothing : tail = [] := by
      rw [List.length_append] at within
      exact List.eq_nil_of_length_eq_zero (by omega)
    rw [nothing, List.append_nil]
    exact stored.decodes

theorem Stored.ne_free {version : UInt8} {raw : Bytes} {ck : SparseDataChunk} (stored : Stored K version raw ck)
    (tail : Bytes) : raw ++ tail ≠ free K version := by
  intro same
  apply stored.nonzero
  have first : raw = (raw ++ tail).take raw.length := List.take_left.symm
  rw [same, free, take_zeros stored.fits] at first
  exact first

/-- What a slot has in the file, up to its end. -/
inductive SlotBytes (K : Config) (version : UInt8) : Bytes → Option SparseDataChunk → Prop where
  | free : SlotBytes K version (free K version) none
  | held {raw tail : Bytes} {ck : SparseDataChunk} : Stored K version raw ck → SlotBytes K version (raw ++ tail) (some ck)

structure Holds (K : Config) (m : LongByteArrayMap) (slots : Nat → Option SparseDataChunk) : Prop where
  inside : ∀ i, slotPosition K m i < m.db.length →
    SlotBytes K m.version (slice m.db (slotPosition K m i) (arrayLength K m.version)) (slots i)
  outside : ∀ i, m.db.length ≤ slotPosition K m i → slots i = none

/-- What the map writes into a slot: zeros, or a record. -/
inductive Piece (K : Config) (version : UInt8) : Bytes → Option SparseDataChunk → Prop where
  | free : Piece K version (free K version) none
  | stored {raw : Bytes} {ck : SparseDataChunk} : Stored K version raw ck → Piece K version raw (some ck)

theorem Piece.of_whole {version : UInt8} (old : ¬ 1 < version) {raw : Bytes} (length : raw.length = arrayLength K version)
    {ck : SparseDataChunk} (decodes : SparseDataChunk.ofBytes K raw version = .ok ck) : ∃ r, Piece K version raw r := by
  by_cases zero : raw = zeros raw.length
  · refine ⟨none, ?_⟩
    rw [zero, length]
    exact .free
  · exact ⟨some ck, .stored ⟨decodes, Nat.le_of_eq length, zero, fun modern => absurd modern old, fun _ => length⟩⟩

theorem length_chunkRecord {ps : List HashLocPair} (typed : ∀ p ∈ ps, p.Typed K) (flags : UInt8) (doop : Int) :
    (chunkRecord K flags ps doop).length = 13 + ps.length * K.bal := by
  simp only [chunkRecord, List.length_append, List.length_cons, List.length_nil, length_toBE32, length_records typed]
  omega

theorem header_chunkRecord {ps : List HashLocPair} (fits : SparseDataChunk.Fits K ps.length) (flags : UInt8) (doop : Int) :
    ofBE32 (slice (chunkRecord K flags ps doop) 1 4) = (13 + ps.length * K.bal : Nat) := by
  have bytes : slice (chunkRecord K flags ps doop) 1 4 = toBE32 (1 + 4 + 4 + 4 + ps.length * K.bal) := by
    have four := length_toBE32 (1 + 4 + 4 + 4 + ps.length * K.bal)
    rw [slice, chunkRecord, List.singleton_append, List.drop_succ_cons, List.drop_zero, ← four, List.take_left]
  unfold SparseDataChunk.Fits at fits
  rw [bytes, ofBE32_toBE32]
  have small := int_eq (x := ((13 + ps.length * K.bal : Nat) : Int)) (by omega) (by omega)
  have cast : (1 + 4 + 4 + 4 + (ps.length : Int) * K.bal) = ((13 + ps.length * K.bal : Nat) : Int) := by
    push_cast
    rfl
  rw [cast]
  exact small

theorem piece_of_getBytes (usable : K.Usable) {c : SparseDataChunk} (typed : ∀ p ∈ c.ar.values, p.Typed K) {raw : Bytes}
    (done : (c.getBytes K).2 = .ok raw) : ∃ r, Piece K c.version raw r := by
  rcases version_cases c.version with old | old | modern
  · have length : raw.length = arrayLength K c.version := by
      rw [SparseDataChunk.getBytes, if_pos old] at done
      rw [SparseDataChunk.length_getBytes0 done, old]
      rfl
    have wide : 1 + K.hashLength + 1 + 8 ≤ raw.length := by
      rw [length, old]
      exact Nat.le_mul_of_pos_right _ usable.cluster
    obtain ⟨ck, decodes⟩ := SparseDataChunk.marshall0_total wide ⟨0, 0, 0, 0, c.version, Fingers.empty⟩
    refine Piece.of_whole (by rw [old]; decide) length (show SparseDataChunk.ofBytes K raw c.version = .ok ck from ?_)
    rw [SparseDataChunk.ofBytes, SparseDataChunk.marshall, if_pos old, decodes]
  · have first : c.version ≠ 0 := by
      rw [old]
      decide
    have length : raw.length = arrayLength K c.version := by
      rw [SparseDataChunk.getBytes, if_neg first, if_pos old] at done
      rw [SparseDataChunk.length_getBytes1 done, old]
      rfl
    have wide : raw.length = K.v1arrayLength := by
      rw [length, old]
      rfl
    obtain ⟨ck, decodes⟩ := SparseDataChunk.marshall1_total wide ⟨0, 0, 0, 0, c.version, Fingers.empty⟩
    refine Piece.of_whole (by rw [old]; decide) length (show SparseDataChunk.ofBytes K raw c.version = .ok ck from ?_)
    rw [SparseDataChunk.ofBytes, SparseDataChunk.marshall, if_neg first, if_pos old, decodes]
  · have second : 2 ≤ c.version := modern
    obtain ⟨few, fits, sound⟩ := SparseDataChunk.getBytes_ok second typed done
    obtain ⟨c', encoded, -⟩ := SparseDataChunk.getBytes_eq second typed sound few fits
    rw [encoded] at done
    obtain rfl := Except.ok.inj done
    rw [← SparseDataChunk.length_values] at fits few
    obtain ⟨ck, decodes, -⟩ := SparseDataChunk.ofBytes_chunkRecord typed sound fits c.flags (int (dupBytes c.ar.values)) second
    have length := length_chunkRecord typed c.flags (int (dupBytes c.ar.values))
    have header := header_chunkRecord fits c.flags (int (dupBytes c.ar.values))
    refine ⟨some ck, .stored ⟨decodes, ?_, ?_, fun _ => ⟨by omega, by rw [header, length]⟩, fun old => absurd modern old⟩⟩
    · rw [usable.maxElementsPerAr] at few
      have short := Nat.mul_le_mul_right K.bal (Int.ofNat_le.mp few)
      rw [length, arrayLength_modern modern, usable.v2arrayLength, Nat.mul_comm K.bal]
      omega
    · intro zero
      rw [zero, ofBE32_zeros (by omega)] at header
      omega

variable {m : LongByteArrayMap} {slots : Nat → Option SparseDataChunk}

theorem slotPosition_succ (i : Nat) : slotPosition K m (i + 1) = slotPosition K m i + arrayLength K m.version := by
  unfold slotPosition
  rw [Nat.succ_mul]
  omega

theorem slotPosition_add_le {i j : Nat} (less : i < j) :
    slotPosition K m i + arrayLength K m.version ≤ slotPosition K m j := by
  rw [← slotPosition_succ]
  unfold slotPosition
  exact Nat.add_le_add_right (Nat.mul_le_mul_right _ less) _

/-! ### Reads -/

/-- A slot that is read says what it holds, whatever the buffer had before. -/
theorem Holds.readSlot (holds : Holds K m slots) {i : Nat} (inside : slotPosition K m i < m.db.length) {buf : Bytes}
    (wide : buf.length = arrayLength K m.version) :
    (slots i = none ∧ readSlot K m buf i = free K m.version) ∨
      ∃ ck, slots i = some ck ∧ readSlot K m buf i ≠ free K m.version ∧
        SparseDataChunk.ofBytes K (readSlot K m buf i) m.version = .ok ck := by
  have read : LongByteArrayMap.readSlot K m buf i = slice m.db (slotPosition K m i) (arrayLength K m.version) ++
      buf.drop (slice m.db (slotPosition K m i) (arrayLength K m.version)).length := by
    rw [LongByteArrayMap.readSlot, readInto_eq, wide]
  have size : (LongByteArrayMap.readSlot K m buf i).length = arrayLength K m.version := by
    rw [LongByteArrayMap.readSlot, length_readInto, wide]
  have form := holds.inside i inside
  generalize slice m.db (slotPosition K m i) (arrayLength K m.version) = s at form read
  generalize slots i = r at form
  cases form with
  | free =>
    refine .inl ⟨rfl, ?_⟩
    rw [read, free, length_zeros, List.drop_eq_nil_of_le (Nat.le_of_eq wide), List.append_nil]
  | @held raw tail ck stored =>
    rw [List.append_assoc] at read
    rw [read] at size ⊢
    exact .inr ⟨ck, rfl, stored.ne_free _, stored.extend (Nat.le_of_eq size)⟩

theorem get_outside {pos : Nat} (behind : m.db.length ≤ getMapFilePosition K m pos) : get K m pos = .ok none := by
  unfold get
  dsimp only
  split
  · rfl
  · unfold recordLength
    rw [readInto_end behind, ofBE32_zeros (Nat.le_refl 5)]
    by_cases modern : 1 < m.version
    · rw [if_pos modern, if_neg (by decide), if_pos ⟨modern, rfl⟩]
    · rw [if_neg modern, if_neg (by omega), if_neg fun both => modern both.1, readInto_end behind, Int.toNat_natCast]
      exact if_pos rfl

theorem get_free {pos : Nat} (inside : getMapFilePosition K m pos < m.db.length) (usable : K.Usable)
    (empty : slice m.db (getMapFilePosition K m pos) (arrayLength K m.version) = free K m.version) :
    get K m pos = .ok none := by
  unfold get
  dsimp only
  rw [if_neg (by omega)]
  unfold recordLength
  by_cases modern : 1 < m.version
  · have long : 5 ≤ arrayLength K m.version := by
      rw [arrayLength_modern modern, usable.v2arrayLength]
      omega
    have start : slice m.db (getMapFilePosition K m pos) 5 = zeros 5 := by
      rw [slice_slice_take _ _ long, empty, free, take_zeros long]
    have zero : ofBE32 (slice (readInto (zeros 5) m.db (getMapFilePosition K m pos)) 1 4) = 0 := by
      rw [readInto_full (by rw [start, length_zeros]), start, ofBE32_zeros (Nat.le_refl 5)]
    rw [if_pos modern, zero, if_neg (by decide), if_pos ⟨modern, rfl⟩]
  · have whole : readInto (zeros (arrayLength K m.version)) m.db (getMapFilePosition K m pos) = free K m.version := by
      rw [readInto_full (by rw [empty, free, length_zeros]), empty]
    rw [if_neg modern, if_neg (by omega), if_neg fun both => modern both.1, Int.toNat_natCast, if_pos whole]

theorem get_stored {pos : Nat} (inside : getMapFilePosition K m pos < m.db.length) {raw tail : Bytes}
    {ck : SparseDataChunk} (stored : Stored K m.version raw ck)
    (held : slice m.db (getMapFilePosition K m pos) (arrayLength K m.version) = raw ++ tail) :
    get K m pos = .ok (some ck) := by
  have part {n : Nat} (less : n ≤ raw.length) : slice m.db (getMapFilePosition K m pos) n = raw.take n := by
    rw [slice_slice_take _ _ (less.trans stored.fits), held, List.take_append_of_le_length less]
  have whole : readInto (zeros raw.length) m.db (getMapFilePosition K m pos) = raw := by
    have all := part (Nat.le_refl _)
    rw [List.take_length] at all
    rw [readInto_full (by rw [all]), all]
  have length : recordLength K m (getMapFilePosition K m pos) = raw.length := by
    unfold recordLength
    by_cases modern : 1 < m.version
    · obtain ⟨long, header⟩ := stored.header modern
      have start : slice (raw.take 5) 1 4 = slice raw 1 4 := by
        rw [slice, slice, List.drop_take, List.take_take]
        rfl
      have full : (slice m.db (getMapFilePosition K m pos) 5).length = 5 := by
        rw [part long, List.length_take, Nat.min_eq_left long]
      rw [if_pos modern, readInto_full full, part long, start, header]
    · rw [if_neg modern, stored.whole modern]
  have positive : ¬ (1 < m.version ∧ (raw.length : Int) = 0) := by
    rintro ⟨modern, zero⟩
    have long := (stored.header modern).1
    omega
  have differs := stored.ne_free []
  rw [List.append_nil] at differs
  unfold get
  dsimp only
  rw [if_neg (by omega), length, if_neg (by omega), if_neg positive, Int.toNat_natCast, whole, if_neg differs, stored.decodes]

theorem Holds.get (holds : Holds K m slots) (usable : K.Usable) (pos : Nat) :
    get K m pos = .ok (slots (pos / K.chunkLength.toNat)) := by
  by_cases inside : getMapFilePosition K m pos < m.db.length
  · have form := holds.inside _ inside
    generalize held : slice m.db (slotPosition K m (pos / K.chunkLength.toNat)) (arrayLength K m.version) = s at form
    generalize slots (pos / K.chunkLength.toNat) = r at form
    cases form with
    | free => exact get_free inside usable held
    | held stored => exact get_stored inside stored held
  · rw [holds.outside _ (Nat.not_lt.mp inside)]
    exact get_outside (Nat.not_lt.mp inside)

theorem chunk_pos (usable : K.Usable) : 0 < K.chunkLength.toNat := by
  have positive := usable.chunk
  omega

theorem get_slot (holds : Holds K m slots) (usable : K.Usable) (i : Nat) :
    get K m (i * K.chunkLength.toNat) = .ok (slots i) := by
  rw [holds.get usable, Nat.mul_div_cancel i (chunk_pos usable)]

/-! ### Writes -/

theorem Piece.fits {version : UInt8} {w : Bytes} {r : Option SparseDataChunk} (piece : Piece K version w r) :
    w.length ≤ arrayLength K version := by
  cases piece with
  | free => exact Nat.le_of_eq (length_zeros _)
  | stored stored => exact stored.fits

theorem SlotBytes.extended {version : UInt8} {s : Bytes} {r : Option SparseDataChunk} (form : SlotBytes K version s r) :
    SlotBytes K version (s ++ zeros (arrayLength K version - s.length)) r := by
  cases form with
  | free =>
    rw [LongByteArrayMap.free, length_zeros, Nat.sub_self, zeros_zero, List.append_nil]
    exact .free
  | held stored =>
    rw [List.append_assoc]
    exact .held stored

theorem Holds.write (holds : Holds K m slots) {w : Bytes} {r : Option SparseDataChunk} (piece : Piece K m.version w r)
    (j : Nat) : Holds K { m with db := writeAt m.db (slotPosition K m j) w } (Function.update slots j r) := by
  have fits := piece.fits
  have grown := length_writeAt m.db (slotPosition K m j) w
  have same (i : Nat) : slotPosition K { m with db := writeAt m.db (slotPosition K m j) w } i = slotPosition K m i := rfl
  constructor
  · intro i inside
    rw [same] at inside ⊢
    dsimp only at inside ⊢
    rcases Nat.lt_trichotomy i j with before | here | after
    · have apart := slotPosition_add_le (K := K) (m := m) before
      rw [Function.update_of_ne (Nat.ne_of_lt before), slice_writeAt_before apart]
      by_cases there : slotPosition K m i < m.db.length
      · exact (holds.inside i there).extended
      · have nothing : slice m.db (slotPosition K m i) (arrayLength K m.version) = [] :=
          List.eq_nil_of_length_eq_zero (by rw [length_slice_eq]; omega)
        rw [nothing, holds.outside i (Nat.not_lt.mp there)]
        exact .free
    · subst here
      rw [Function.update_self, slice_writeAt_here fits]
      cases piece with
      | free =>
        rw [free, length_zeros, Nat.sub_self, slice, List.take_zero, List.append_nil]
        exact .free
      | stored stored => exact .held stored
    · have apart := slotPosition_add_le (K := K) (m := m) after
      rw [Function.update_of_ne (Nat.ne_of_gt after), slice_writeAt_after (by omega)]
      exact holds.inside i (by omega)
  · intro i behind
    rw [same] at behind
    dsimp only at behind
    by_cases here : i = j
    · subst here
      cases piece with
      | free => exact Function.update_self ..
      | stored stored =>
        have short : w.length = 0 := by omega
        exact absurd (by rw [List.eq_nil_of_length_eq_zero short]; rfl) stored.nonzero
    · rw [Function.update_of_ne here]
      exact holds.outside i (by omega)

end LongByteArrayMap

end SDFS

end EncryptedDedup
