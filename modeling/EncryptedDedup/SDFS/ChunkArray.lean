import EncryptedDedup.SDFS.ReadExtents
import EncryptedDedup.SDFS.WriteAccelerator

/-!
# The array of a buffer

Once `initBuffer` has read the extents, the bytes of the chunk are in the array `bar`.
-/

namespace EncryptedDedup.SDFS.WritableCacheBuffer

open Program

variable {σ : Type} {V : Services σ} {c : Int → Option UInt8} {w w₁ : WritableCacheBuffer σ}

/-- An open buffer with its extents, before they are read. -/
structure Unread (V : Services σ) (w : WritableCacheBuffer σ) : Prop where
  closed : w.closed = false
  flushing : w.flushing = false
  buf : w.buf = none
  wf : w.ar.WellFormed V.config.chunkLength
  all : AllStored V w.store w.ar

structure InArray (V : Services σ) (c : Int → Option UInt8) (w : WritableCacheBuffer σ) : Prop where
  closed : w.closed = false
  flushing : w.flushing = false
  idle : w.accelBuffer = none
  hlAdded : w.hlAdded = false
  buf : w.buf.isSome
  bar : ∃ a, w.bar = some a ∧ a.length = V.config.chunkLength.toNat ∧ byteAt a = c

/-- `b` is what a read of `len` bytes from `startPos` on is to give. -/
def Reads (c : Int → Option UInt8) (startPos len : Int) (b : Bytes) : Prop :=
  b.length = len ∧ ∀ i, 0 ≤ i → i < len → byteAt b i = c (startPos + i)

def InChunk (V : Services σ) (startPos len : Int) : Prop :=
  0 ≤ startPos ∧ 0 < len ∧ startPos + len ≤ V.config.chunkLength

theorem reads_slice {a : Bytes} {startPos len : Int} (low : 0 ≤ startPos) (filled : 0 ≤ len)
    (inside : startPos + len ≤ a.length) : Reads (byteAt a) startPos len (slice a startPos.toNat len.toNat) := by
  refine ⟨?_, fun i from_ upto => ?_⟩
  · rw [length_slice (by omega)]
    omega
  · rw [byteAt_slice, if_pos (by omega), Int.toNat_of_nonneg low]

/-! ### `initBuffer` -/

theorem initBuffer_idle (idle : w.accelBuffer = none) (buf : w.buf.isSome) : (initBuffer V).Gives w () w := by
  rw [initBuffer, initBufferAfter]
  refine Gives.bind (writeAccelBufferIn_none idle V.stack) (gives_get ?_)
  rw [if_neg (by rw [Option.isNone_eq_false_iff.mpr buf]; exact Bool.false_ne_true)]
  exact gives_pure () w

theorem initBuffer_reads (cluster : 1 < V.config.maxHashCluster)
    (flushed : (writeAccelBuffer V).Gives w () w₁) (unread : Unread V w₁) (idle : w₁.accelBuffer = none) :
    ∃ a, (initBuffer V).Gives w () { w₁ with hlAdded := false, bar := some a, buf := some .bar } ∧
      InArray V (chunkBytes V w₁.store w₁.direct w₁.ar) { w₁ with hlAdded := false, bar := some a, buf := some .bar } := by
  obtain ⟨a, given, length, bytes⟩ := readExtents_gives cluster unread.wf unread.all
  refine ⟨a, ?_, unread.closed, unread.flushing, idle, rfl, rfl, a, rfl, length, bytes⟩
  rw [initBuffer, initBufferAfter]
  refine Gives.bind flushed (gives_get ?_)
  rw [if_pos (by rw [unread.buf]; rfl)]
  exact given

/-! ### Writing to the array and reading it -/

theorem writeBlock_gives (ready : (initBuffer V).Gives w () w₁) (inArray : InArray V c w₁) {wr : Write}
    (low : 0 ≤ wr.pos) (inside : wr.pos + wr.bytes.length ≤ V.config.chunkLength) :
    ∃ a, (writeBlock V wr.bytes wr.pos).Gives w () { w₁ with bar := some a, hlAdded := false, dirty := true } ∧
      InArray V (written c wr) { w₁ with bar := some a, hlAdded := false, dirty := true } := by
  obtain ⟨closed, flushing, idle, -, buf, a, bar, length, bytes⟩ := inArray
  have start : ((wr.pos.toNat : Nat) : Int) = wr.pos := Int.toNat_of_nonneg low
  have there : wr.pos.toNat + wr.bytes.length ≤ a.length := by omega
  refine ⟨overwrite a wr.pos.toNat wr.bytes, ?_, closed, flushing, idle, rfl, buf, _, rfl, ?_, ?_⟩
  · rw [writeBlock]
    refine Gives.bind ready (gives_get ?_)
    rw [bar]
    dsimp only
    rw [if_pos (by omega)]
    exact gives_modify _ _
  · rw [length_overwrite there, length]
  · rw [byteAt_overwrite_eq there, start, bytes]

theorem write_array (closed : w.closed = false) (flushing : w.flushing = false)
    (direct : ¬ (w.buf.isNone ∧ w.reconstructed ∧ 1 < V.config.maxHashCluster))
    (ready : (initBuffer V).Gives { w with dirty := true } () w₁) (inArray : InArray V c w₁) {wr : Write}
    (part : Partial V wr) :
    ∃ a total, (write V wr.bytes wr.pos).Gives w ()
        { w₁ with bar := some a, hlAdded := false, dirty := true, bytesWritten := total } ∧
      InArray V (written c wr) { w₁ with bar := some a, hlAdded := false, dirty := true, bytesWritten := total } := by
  obtain ⟨low, inside, notWhole⟩ := part
  obtain ⟨a, given, inArray'⟩ := writeBlock_gives ready inArray low inside
  refine ⟨a, int (w₁.bytesWritten + wr.bytes.length), ?_, inArray'.closed, inArray'.flushing, inArray'.idle, rfl,
    inArray'.buf, inArray'.bar⟩
  have through : (writeBytes V wr.bytes wr.pos).Gives { w with dirty := true } ()
      { w₁ with bar := some a, hlAdded := false, dirty := true } := by
    rw [writeBytes]
    refine gives_get ?_
    rw [if_neg notWhole, if_neg direct]
    exact given
  rw [write]
  refine gives_get ?_
  rw [if_neg (by simp [closed, flushing])]
  exact gives_modify_bind (Gives.bind through (gives_modify _ _))

theorem readArray_gives (ready : (initBuffer V).Gives w () w₁) (inArray : InArray V c w₁) {startPos len : Int}
    (range : InChunk V startPos len) : ∃ b, (readArray V startPos len).Gives w b w₁ ∧ Reads c startPos len b := by
  obtain ⟨-, -, -, -, -, a, bar, length, rfl⟩ := inArray
  obtain ⟨low, filled, inside⟩ := range
  refine ⟨_, ?_, reads_slice low (le_of_lt filled) (by omega)⟩
  rw [readArray]
  refine Gives.bind ready (gives_get ?_)
  rw [if_neg (by omega), bar]
  dsimp only
  rw [if_pos (by omega)]
  exact gives_pure _ w₁

theorem getReadChunk_array (inArray : InArray V c w) {startPos len : Int} (range : InChunk V startPos len) :
    ∃ b, (getReadChunk V startPos len).Gives w b w ∧ Reads c startPos len b := by
  obtain ⟨b, given, reads⟩ := readArray_gives (initBuffer_idle inArray.idle inArray.buf) inArray range
  refine ⟨b, ?_, reads⟩
  have run : runHas w startPos len = false := by rw [runHas, inArray.idle]; rfl
  rw [getReadChunk]
  refine gives_get ?_
  rw [if_neg (by simp [inArray.closed, inArray.flushing]), if_neg (by simp [inArray.hlAdded]), readChunk]
  refine gives_get ?_
  rw [if_neg (by simp [inArray.closed, inArray.flushing]), if_neg (by simp [run])]
  exact given

end EncryptedDedup.SDFS.WritableCacheBuffer
