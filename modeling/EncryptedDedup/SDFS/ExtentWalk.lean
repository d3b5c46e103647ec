import EncryptedDedup.SDFS.ChunkArray

/-!
# Walking along the extents

`getReadChunk` can answer from the stored chunks. It takes them from their first byte on and whole, so that the
extents it meets have to be whole chunks.
-/

namespace EncryptedDedup.SDFS

namespace Fingers

variable {chunkLength : Int} {ar : Fingers}

/-- The extents leave no gap in the chunk. -/
def Gapless (chunkLength : Int) (ar : Fingers) : Prop := ∀ x, 0 ≤ x → x < chunkLength → (ar.denotes x).isSome

theorem WellFormed.next_entry (wf : ar.WellFormed chunkLength) (gapless : Gapless chunkLength ar) {k : Int}
    {h : HashLocPair} (stored : ar.entry k = some h) (short : k + h.nlen < chunkLength) :
    ∃ h', ar.entry (k + h.nlen) = some h' := by
  have start := wf.extents.start stored
  have filled := wf.extents.filled stored
  obtain ⟨q, denoted⟩ := Option.isSome_iff_exists.mp (gapless (k + h.nlen) (by omega) short)
  obtain ⟨j, h', found, covered, -⟩ := (wf.denotes_iff _ q).mp denoted
  rw [HashLocPair.covers_iff, wf.extents.keyed found] at covered
  rcases lt_trichotomy j k with before | rfl | after
  · have apart := wf.extents.disjoint found stored before
    omega
  · cases Option.some.inj (found.symm.trans stored)
    omega
  · have apart := wf.extents.disjoint stored found after
    have here : j = k + h.nlen := by omega
    exact ⟨h', here ▸ found⟩

theorem WellFormed.floorEntry_of_entry (wf : ar.WellFormed chunkLength) {j x : Int} {h : HashLocPair}
    (stored : ar.entry j = some h) (from_ : j ≤ x) (upto : x < j + h.nlen ∨ chunkLength ≤ j + h.nlen) :
    ∃ r, ar.tree.floorEntry x = some (j, r) := by
  obtain ⟨r, found, -⟩ := get_of_entry stored
  refine ⟨r, OrderedMap.floorEntry_of_greatest found from_ ?_⟩
  intro i r' found' below
  by_contra after
  have other := entry_of_get found'
  have apart := wf.extents.disjoint stored other (by omega)
  have filled := wf.extents.filled other
  have inside := wf.extents.inside other
  omega

end Fingers

namespace WritableCacheBuffer

variable {σ : Type} {V : Services σ} {c : Int → Option UInt8} {w : WritableCacheBuffer σ}

/-- The range starts with an extent; the extents in it are from the first bytes of their chunks; those that
end before it ends are the whole chunk, and have more than one byte behind them. -/
structure Aligned (V : Services σ) (w : WritableCacheBuffer σ) (startPos len : Int) : Prop where
  starts : (w.ar.entry startPos).isSome
  offset : ∀ k h, w.ar.entry k = some h → startPos ≤ k → k < startPos + len → h.offset = 0
  whole : ∀ k h b, w.ar.entry k = some h → startPos ≤ k → k + h.nlen < startPos + len →
    V.chunkOf w.store w.direct h = some b → b.length = h.nlen
  next : ∀ k h h', w.ar.entry k = some h → startPos ≤ k → k + h.nlen < startPos + len →
    w.ar.entry (k + h.nlen) = some h' → 1 < h'.nlen ∨ V.config.chunkLength ≤ k + h.nlen + h'.nlen

theorem floorKey_of_entry {chunkLength : Int} (wf : w.ar.WellFormed chunkLength) {j x : Int} {h : HashLocPair}
    (stored : w.ar.entry j = some h) (from_ : j ≤ x) (upto : x < j + h.nlen ∨ chunkLength ≤ j + h.nlen) :
    floorKey w.ar x = some j := by
  obtain ⟨r, found⟩ := wf.floorEntry_of_entry stored from_ upto
  rw [floorKey, found, Option.map_some]

theorem reads_append {startPos n m : Int} {a b : Bytes} (first : Reads c startPos n a)
    (second : Reads c (startPos + n) m b) : Reads c startPos (n + m) (a ++ b) := by
  refine ⟨?_, fun i from_ upto => ?_⟩
  · rw [List.length_append, Nat.cast_add, first.1, second.1]
  · rw [byteAt_append, first.1]
    split
    · exact first.2 i from_ (by assumption)
    · have shift : startPos + n + (i - n) = startPos + i := by omega
      rw [second.2 (i - n) (by omega) (by omega), shift]

theorem byteAt_take (b : Bytes) (m : Nat) {i : Int} (upto : i < m) : byteAt (b.take m) i = byteAt b i := by
  rw [byteAt, byteAt]
  split
  · rw [List.getElem?_take, if_pos (by omega)]
  · rfl

theorem reads_chunk {chunkLength : Int} (wf : w.ar.WellFormed chunkLength) {k : Int} {h : HashLocPair} {b : Bytes}
    (stored : w.ar.entry k = some h) (refers : Refers V w.store h b) (offset : h.offset = 0) {m : Nat}
    (upto : (m : Int) ≤ h.nlen) : Reads (contents V w.store w.direct w.ar) k m (b.take m) := by
  have inside := refers.inside
  have pos := wf.extents.keyed stored
  refine ⟨?_, fun i from_ less => ?_⟩
  · rw [List.length_take]
    omega
  · have covered : h.covers (k + i) = true := by
      rw [HashLocPair.covers_iff, pos]
      omega
    have place : h.offset + (k + i - h.pos) = i := by omega
    rw [contents_of_entry wf stored refers covered, place, byteAt_take b m less]

theorem walk_full (wf : w.ar.WellFormed V.config.chunkLength) (all : AllStored V w.store w.ar)
    {ep k : Int} (stored : k < ep → ∃ h, w.ar.entry k = some h) (b : Bytes) (turns : Nat) :
    walk V w ep (turns + 1) k (.written b 0) = .finished (.ok (.written b 0)) := by
  rw [walk]
  split
  · rename_i before
    obtain ⟨h, found⟩ := stored before
    obtain ⟨ck, refers⟩ := all k h found
    have filled := wf.extents.filled found
    have inside := refers.inside
    have low := refers.low
    have none_ : (ByteBuffer.written b 0).remaining = 0 := by
      simp [ByteBuffer.remaining, ByteBuffer.written]
    have same : (ByteBuffer.written b 0).put (ck.take 0) = some (.written b 0) := by
      rw [List.take_zero, ByteBuffer.put_written, List.append_nil]
      rfl
    rw [found]
    dsimp only
    rw [refers.chunkOf]
    dsimp only
    rw [none_, same]
    dsimp only
    rw [if_pos (by omega)]
  · rfl

theorem walk_last {ep k : Int} {h : HashLocPair} {ck front : Bytes} {m : Nat} (before : k < ep)
    (found : w.ar.entry k = some h) (chunk : V.chunkOf w.store w.direct h = some ck) (long : m < ck.length) (turns : Nat) :
    walk V w ep (turns + 1) k (.written front m) = .finished (.ok (.written (front ++ ck.take m) 0)) := by
  have missing : (ByteBuffer.written front m).remaining = m := by
    simp [ByteBuffer.remaining, ByteBuffer.written]
  have length : (ck.take m).length = m := List.length_take_of_le (le_of_lt long)
  have put : (ByteBuffer.written front m).put (ck.take m) = some (.written (front ++ ck.take m) 0) := by
    rw [ByteBuffer.put_written, length, if_pos (le_refl m), Nat.sub_self]
  rw [walk, if_pos before, found]
  dsimp only
  rw [chunk]
  dsimp only
  rw [missing, put]
  dsimp only
  rw [if_pos long]

theorem walk_on {ep k k' : Int} {h : HashLocPair} {ck front : Bytes} {m : Nat} (before : k < ep)
    (found : w.ar.entry k = some h) (chunk : V.chunkOf w.store w.direct h = some ck) (short : ck.length ≤ m)
    (next : floorKey w.ar (int (k + ck.length + 1)) = some k') (turns : Nat) :
    walk V w ep (turns + 1) k (.written front m) = walk V w ep turns k' (.written (front ++ ck) (m - ck.length)) := by
  have missing : (ByteBuffer.written front m).remaining = m := by
    simp [ByteBuffer.remaining, ByteBuffer.written]
  have put : (ByteBuffer.written front m).put ck = some (.written (front ++ ck) (m - ck.length)) := by
    rw [ByteBuffer.put_written, if_pos short]
  rw [walk, if_pos before, found]
  dsimp only
  rw [chunk]
  dsimp only
  rw [missing, List.take_of_length_le short, put]
  dsimp only
  rw [if_neg (not_lt.mpr short), next]

/-- The position behind the next byte is in the next extent, but for an extent of one byte. -/
theorem next_key (wf : w.ar.WellFormed V.config.chunkLength) (gapless : w.ar.Gapless V.config.chunkLength)
    {startPos len : Int} (aligned : Aligned V w startPos len) {k : Int} {h : HashLocPair}
    (stored : w.ar.entry k = some h) (from_ : startPos ≤ k) :
    ∃ k', floorKey w.ar (k + h.nlen + 1) = some k' ∧ (∃ h', w.ar.entry k' = some h') ∧
      (k + h.nlen < startPos + len → k + h.nlen < V.config.chunkLength → k' = k + h.nlen) := by
  have filled := wf.extents.filled stored
  by_cases last : V.config.chunkLength ≤ k + h.nlen
  · exact ⟨k, floorKey_of_entry wf stored (by omega) (Or.inr last), ⟨h, stored⟩, fun _ inside => absurd inside (by omega)⟩
  · obtain ⟨h', stored'⟩ := wf.next_entry gapless stored (by omega)
    by_cases wide : 1 < h'.nlen ∨ V.config.chunkLength ≤ k + h.nlen + h'.nlen
    · exact ⟨k + h.nlen, floorKey_of_entry wf stored' (by omega) (by omega), ⟨h', stored'⟩, fun _ _ => rfl⟩
    · -- The walk goes past an extent of one byte.
      have one : h'.nlen = 1 := by
        have filled' := wf.extents.filled stored'
        omega
      obtain ⟨h'', stored''⟩ := wf.next_entry gapless stored' (by omega)
      rw [one] at stored''
      have filled'' := wf.extents.filled stored''
      exact ⟨k + h.nlen + 1, floorKey_of_entry wf stored'' (le_refl _) (by omega), ⟨h'', stored''⟩,
        fun before _ => absurd (aligned.next k h h' stored from_ before stored') wide⟩

theorem walk_reads (small : V.config.chunkLength + 1 < 2 ^ 31)
    (wf : w.ar.WellFormed V.config.chunkLength) (all : AllStored V w.store w.ar)
    (gapless : w.ar.Gapless V.config.chunkLength) {startPos len : Int} (range : InChunk V startPos len)
    (aligned : Aligned V w startPos len) {turns m : Nat} {k : Int} {front : Bytes}
    (stored : ∃ h, w.ar.entry k = some h) (place : k = startPos + front.length) (missing : front.length + m = len)
    (some_ : 0 < m) (enough : m < turns)
    (reads : Reads (contents V w.store w.direct w.ar) startPos front.length front) :
    ∃ b, walk V w (startPos + len) turns k (.written front m) = .finished (.ok (.written b 0)) ∧
      Reads (contents V w.store w.direct w.ar) startPos len b := by
  induction turns generalizing k front m with
  | zero => exact absurd enough (Nat.not_lt_zero m)
  | succ turns ih =>
    obtain ⟨h, found⟩ := stored
    obtain ⟨ck, refers⟩ := all k h found
    have chunk := refers.chunkOf w.direct
    obtain ⟨low, -, upto⟩ := range
    have filled := wf.extents.filled found
    have inside := wf.extents.inside found
    have there := refers.inside
    have offset := aligned.offset k h found (by omega) (by omega)
    have whole : k + h.nlen < startPos + len → (ck.length : Int) = h.nlen := fun before =>
      aligned.whole k h ck found (by omega) before chunk
    by_cases long : m < ck.length
    · -- The last bytes are the first ones of this chunk.
      have part : (m : Int) ≤ h.nlen := by omega
      refine ⟨front ++ ck.take m, walk_last (by omega) found chunk long turns, ?_⟩
      rw [← missing]
      exact reads_append reads (place ▸ reads_chunk wf found refers offset part)
    · have same : (ck.length : Int) = h.nlen := by omega
      have reads' : Reads (contents V w.store w.direct w.ar) startPos (front ++ ck).length (front ++ ck) := by
        have piece := reads_chunk wf found refers offset (le_of_eq same)
        rw [List.take_of_length_le (le_refl _), place] at piece
        rw [List.length_append, Nat.cast_add]
        exact reads_append reads piece
      obtain ⟨k', key, stored', behind⟩ := next_key wf gapless aligned found (by omega)
      have position : int (k + ck.length + 1) = k + h.nlen + 1 := by
        rw [same]
        exact int_eq (by omega) (by omega)
      rw [walk_on (by omega) found chunk (not_lt.mp long) (position ▸ key)]
      by_cases done : m = ck.length
      · refine ⟨front ++ ck, ?_, ?_⟩
        · rw [done, Nat.sub_self]
          obtain ⟨turns', rfl⟩ := Nat.exists_eq_succ_of_ne_zero (show turns ≠ 0 by omega)
          exact walk_full wf all (fun _ => stored') _ turns'
        · have length : ((front ++ ck).length : Int) = len := by
            rw [List.length_append]
            omega
          rwa [length] at reads'
      · refine ih stored' ?_ ?_ (by omega) (by omega) reads'
        · rw [behind (by omega) (by omega), List.length_append]
          omega
        · rw [List.length_append]
          omega

end WritableCacheBuffer

end EncryptedDedup.SDFS
