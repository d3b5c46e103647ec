import EncryptedDedup.SDFS.BufferedWrites
import EncryptedDedup.SDFS.ReadPaths
import EncryptedDedup.SDFS.RecordWrite

/-!
# The contents of a buffer

An open buffer has the bytes of its chunk in its extents and the run over them, in its array, or in an array that a caller
has given it. Writes and reads go to the one that has them.
-/

namespace EncryptedDedup.SDFS.WritableCacheBuffer

open Program

variable {σ : Type}

/-- The extents and the run have the bytes `c`, and fit into a record. -/
structure InExtents (V : Services σ) (c : Int → Option UInt8) (w : WritableCacheBuffer σ) : Prop where
  on : OnExtents V c w
  sized : w.ar.AllSized
  few : w.hlAdded = true → w.ar.size ≤ V.config.maxElementsPerAr

/-- The buffer has the bytes `c` of its chunk. -/
inductive Carries (V : Services σ) (c : Int → Option UInt8) (w : WritableCacheBuffer σ) : Prop
  | extents (inExtents : InExtents V c w) (changed : w.dirty = true → w.accelBuffer.isSome ∨ w.hlAdded = true)
  | array (inArray : InArray V c w) (bar : w.buf = some .bar)
  | whole (b : Bytes) (given : w.buf = some (.given b)) (same : byteAt b = c) (length : b.length = V.config.chunkLength)
      (closed : w.closed = false) (flushing : w.flushing = false) (idle : w.accelBuffer = none)
      (hlAdded : w.hlAdded = false) (dirty : w.dirty = true)

structure Follows (V : Services σ) (w w' : WritableCacheBuffer σ) : Prop where
  keeps : V.Keeps w.store w'.store
  direct : w'.direct = w.direct

variable {V : Services σ} {w w' : WritableCacheBuffer σ} {c g : Int → Option UInt8}

theorem Follows.refl (w : WritableCacheBuffer σ) : Follows V w w := ⟨fun found => found, rfl⟩

theorem Carries.open_ (carries : Carries V c w) : ¬ (w.closed ∨ w.flushing) := by
  rcases carries with ⟨⟨on, -, -⟩, -⟩ | ⟨inArray, -⟩ | ⟨b, -, -, -, closed, flushing⟩
  · exact on.open_
  · exact inArray.open_
  · simp [closed, flushing]

/-! ### A larger store -/

theorem OnExtents.keeps (on : OnExtents V c w) {s : σ} (keeps : V.Keeps w.store s) : OnExtents V c { w with store := s } := by
  obtain ⟨⟨closed, flushing, buf, wf, all⟩, gapless, reconstructed, inside, ended, content⟩ := on
  refine ⟨⟨closed, flushing, buf, wf, fun k h stored => ?_⟩, gapless, reconstructed, inside, ended, ?_⟩
  · obtain ⟨b, located, fetched, low, upto, short, blank⟩ := all k h stored
    exact ⟨b, located, fun d => keeps (fetched d), low, upto, short, blank⟩
  · rw [← content, shows_contents (shows_keeps keeps (contents_shows wf all))]
    rfl

theorem Carries.keeps (carries : Carries V c w) {s : σ} (keeps : V.Keeps w.store s) : Carries V c { w with store := s } := by
  rcases carries with ⟨⟨on, sized, few⟩, changed⟩ | ⟨⟨closed, flushing, idle, hlAdded, buf, bar⟩, array⟩ |
    ⟨b, given, same, length, closed, flushing, idle, hlAdded, dirty⟩
  · exact .extents ⟨on.keeps keeps, sized, few⟩ changed
  · exact .array ⟨closed, flushing, idle, hlAdded, buf, bar⟩ array
  · exact .whole b given same length closed flushing idle hlAdded dirty

/-! ### The run -/

theorem sized_tracked : Tracked V fun _ h => 0 ≤ h.len := by
  refine ⟨fun s => ⟨fun sized _ _ => sized, fun sized _ _ => sized⟩, fun _ sized => sized, ?_⟩
  intro s r _ _ _ len _ e _ _
  change 0 ≤ r.1.len
  omega

section

variable (cuts : V.Cuts) (ideal : V.Ideal) (readable : V.Readable)
  (small : V.config.chunkLength + 1 < 2 ^ 31) (enough : V.config.chunkLength.toNat < V.turns)

include cuts ideal readable small enough

theorem writeAccelBuffer_extents {r : Bytes} (run : w.accelBuffer = some r) (wf : w.ar.WellFormed V.config.chunkLength)
    (all : AllStored V w.store w.ar) (sized : w.ar.AllSized) (inside : RunInside V w)
    (can : CanFlush V w r) :
    ∃ w', (writeAccelBuffer V).Gives w () w' ∧
      w' = { w with store := w'.store, ar := w'.ar, prevDoop := w'.prevDoop, hlAdded := true, accelBuffer := none } ∧
      V.Keeps w.store w'.store ∧ w'.ar.WellFormed V.config.chunkLength ∧ AllStored V w'.store w'.ar ∧
      w'.ar.AllSized ∧ w'.ar.size < V.config.maxElementsPerAr ∧
      contents V w'.store w.direct w'.ar = written (contents V w.store w.direct w.ar) ⟨r, w.accelBuffPos⟩ := by
  have less : V.config.chunkLength < 2 ^ 31 := by omega
  obtain ⟨from_, upto⟩ := inside r run
  obtain ⟨w', flushed, ⟨frame, wf', shown, keeps, every⟩, few⟩ := writeAccelBufferIn_few cuts ideal less (le_of_lt enough) run
    wf (contents_shows wf all) from_ upto can V.stack
  exact ⟨w', flushed, frame, keeps, wf', every _ (stored_tracked readable less) all,
    every _ sized_tracked sized, few, (shows_contents shown).symm⟩

theorem InExtents.flush (inExtents : InExtents V c w) (can : Flushable V w) :
    ∃ w', (writeAccelBuffer V).Gives w () w' ∧ InExtents V c w' ∧ w'.accelBuffer = none ∧ Follows V w w' ∧
      w'.dirty = w.dirty ∧ w'.reconstructed = w.reconstructed := by
  obtain ⟨on, sized, few⟩ := inExtents
  cases run : w.accelBuffer with
  | none => exact ⟨w, writeAccelBufferIn_none run V.stack, ⟨on, sized, few⟩, run, .refl w, rfl, rfl⟩
  | some r =>
    have total {x : Int} (low : 0 ≤ x) (high : x < V.config.chunkLength) := on.total low high
    obtain ⟨⟨closed, flushing, buf, wf, all⟩, gapless, reconstructed, inside, ended, content⟩ := on
    obtain ⟨w', flushed, frame, keeps, wf', all', sized', few', written_⟩ :=
      writeAccelBuffer_extents cuts ideal readable small enough run wf all sized inside (can r run)
    have idle : w'.accelBuffer = none := by rw [frame]
    have direct : w'.direct = w.direct := by rw [frame]
    have gapless' : w'.ar.Gapless V.config.chunkLength := by
      intro x low high
      rw [← contents_isSome (d := w.direct) wf' all', written_, ← overlay_singleton]
      exact overlay_isSome (total low high) _
    refine ⟨w', flushed, ⟨⟨⟨by rw [frame]; exact closed, by rw [frame]; exact flushing, by rw [frame]; exact buf, wf', all'⟩,
      gapless', fun waits => ?_, fun r' waits => ?_, fun r' waits => ?_, ?_⟩, sized', fun _ => le_of_lt few'⟩, idle,
      ⟨keeps, direct⟩, by rw [frame], by rw [frame]⟩
    · rw [idle] at waits
      cases waits
    · rw [idle] at waits
      cases waits
    · rw [idle] at waits
      cases waits
    · rw [pending_none idle, overlay_nil, direct, written_, ← content, pending_some run, overlay_singleton]

/-! ### Writing -/

omit cuts ideal readable enough in
theorem InExtents.startRun (inExtents : InExtents V c w) (idle : w.accelBuffer = none) (reconstructed : w.reconstructed = true)
    {wr : Write} (low : 0 ≤ wr.pos) (fits : wr.pos + wr.bytes.length ≤ V.config.chunkLength) :
    ∃ w', (WritableCacheBuffer.startRun wr.bytes wr.pos).Gives w () w' ∧ InExtents V (written c wr) w' ∧
      w'.accelBuffer.isSome ∧ Follows V w w' ∧ w'.dirty = w.dirty := by
  obtain ⟨⟨⟨closed, flushing, buf, wf, all⟩, gapless, -, -, -, content⟩, sized, few⟩ := inExtents
  refine ⟨_, gives_modify _ w, ⟨⟨⟨closed, flushing, buf, wf, all⟩, gapless, fun _ => reconstructed, fun r same => ?_,
    fun r same => ?_, ?_⟩, sized, few⟩, rfl, ⟨fun found => found, rfl⟩, rfl⟩
  · rw [← Option.some.inj same]
    exact ⟨low, fits⟩
  · rw [← Option.some.inj same]
    dsimp only
    rw [int_eq (by omega) (by omega)]
  · rw [pending_none idle, overlay_nil] at content
    rw [← content]
    exact overlay_singleton _ wr

theorem InExtents.wm (inExtents : InExtents V c w) (reconstructed : w.reconstructed = true) {wr : Write}
    (low : 0 ≤ wr.pos) (fits : wr.pos + wr.bytes.length ≤ V.config.chunkLength)
    (continues : Continues V w wr.pos) :
    ∃ w', (WritableCacheBuffer.wm V wr.bytes wr.pos).Gives w () w' ∧ InExtents V (written c wr) w' ∧
      w'.accelBuffer.isSome ∧ Follows V w w' ∧ w'.dirty = w.dirty := by
  have marked : { w with reconstructed := true } = w := by rw [← reconstructed]
  unfold WritableCacheBuffer.wm
  cases run : w.accelBuffer with
  | none =>
    obtain ⟨w', given, inExtents', waits, follows, dirty⟩ := inExtents.startRun small run reconstructed low fits
    refine ⟨w', gives_modify_bind ?_, inExtents', waits, follows, dirty⟩
    rw [marked]
    refine gives_get ?_
    rw [run]
    exact given
  | some r =>
    have next := continues r run
    by_cases joined : w.accelBuffEp = wr.pos
    · rw [if_pos joined] at next
      obtain ⟨⟨⟨closed, flushing, buf, wf, all⟩, gapless, -, inside, ended, content⟩, sized, few⟩ := inExtents
      obtain ⟨from_, upto⟩ := inside r run
      refine ⟨{ w with accelBuffer := some (r ++ wr.bytes), accelBuffEp := int (w.accelBuffPos + wr.bytes.length) },
        gives_modify_bind ?_, ⟨⟨⟨closed, flushing, buf, wf, all⟩, gapless, fun _ => reconstructed, fun r' same => ?_,
          fun r' same => ?_, ?_⟩, sized, few⟩, rfl, ⟨fun found => found, rfl⟩, rfl⟩
      · rw [marked]
        refine gives_get ?_
        rw [run]
        dsimp only
        rw [if_pos joined]
        exact gives_modify _ _
      · rw [← Option.some.inj same, List.length_append]
        dsimp only
        omega
      · rw [← Option.some.inj same, List.length_append]
        dsimp only
        rw [int_eq (by omega) (by omega)]
        omega
      · have joint := written_append (contents V w.store w.direct w.ar) r wr.bytes w.accelBuffPos
        rw [next] at joint
        rw [← content, pending_some run, pending_some rfl, overlay_singleton, overlay_singleton]
        exact joint.symm
    · rw [if_neg joined] at next
      obtain ⟨w₁, flushed, inExtents₁, idle, follows₁, dirty₁, kept⟩ :=
        inExtents.flush cuts ideal readable small enough fun r' same => by
          rw [run] at same
          rw [← Option.some.inj same]
          exact next
      obtain ⟨w', given, inExtents', waits, follows, dirty⟩ :=
        inExtents₁.startRun small idle (kept.trans reconstructed) low fits
      refine ⟨w', gives_modify_bind ?_, inExtents', waits,
        ⟨fun found => follows.keeps (follows₁.keeps found), follows.direct.trans follows₁.direct⟩, dirty.trans dirty₁⟩
      rw [marked]
      refine gives_get ?_
      rw [run]
      dsimp only
      rw [if_neg joined]
      exact Gives.bind flushed given

variable (cluster : 1 < V.config.maxHashCluster)

include cluster

theorem Carries.write (carries : Carries V c w) (own : ∀ b, w.buf ≠ some (.given b)) {wr : Write} (part : Partial V wr)
    (continues : Continues V w wr.pos) :
    ∃ w', (write V wr.bytes wr.pos).Gives w () w' ∧ Carries V (written c wr) w' ∧ Follows V w w' ∧ w'.dirty = true := by
  have open_ := carries.open_
  have start {t : WritableCacheBuffer σ} {n : Int} (given : (writeBytes V wr.bytes wr.pos).Gives { w with dirty := true } () t)
      (count : n = int (t.bytesWritten + wr.bytes.length)) :
      (WritableCacheBuffer.write V wr.bytes wr.pos).Gives w () { t with bytesWritten := n } := by
    rw [WritableCacheBuffer.write, count]
    refine gives_get ?_
    rw [if_neg open_]
    exact gives_modify_bind (Gives.bind given (gives_modify _ _))
  rcases carries with ⟨⟨⟨⟨closed, flushing, buf, wf, all⟩, gapless, reconstructed, inside, ended, content⟩, sized, few⟩, -⟩ |
    ⟨inArray, bar⟩ | ⟨b, given, -⟩
  · have dirtied : InExtents V c { w with dirty := true } :=
      ⟨⟨⟨closed, flushing, buf, wf, all⟩, gapless, reconstructed, inside, ended, content⟩, sized, few⟩
    by_cases mark : w.reconstructed = true
    · obtain ⟨w', given, ⟨⟨⟨closed', flushing', buf', wf', all'⟩, gapless', reconstructed', inside', ended', content'⟩,
        sized', few'⟩, waits, follows, dirty⟩ :=
        dirtied.wm cuts ideal readable small enough mark part.1 part.2.1 continues.mark
      refine ⟨{ w' with bytesWritten := int (w'.bytesWritten + wr.bytes.length) }, start ?_ rfl,
        .extents ⟨⟨⟨closed', flushing', buf', wf', all'⟩, gapless', reconstructed', inside', ended', content'⟩, sized',
          few'⟩ fun _ => .inl waits, ⟨follows.keeps, follows.direct⟩, dirty⟩
      rw [writeBytes]
      refine gives_get ?_
      rw [if_neg part.2.2, if_pos ⟨by dsimp only; rw [buf]; rfl, mark, cluster⟩]
      exact given
    · -- Without the mark the extents are read, and the write goes to the array.
      have idle : w.accelBuffer = none := by
        by_contra run
        exact mark (reconstructed (Option.isSome_iff_ne_none.mpr run))
      have flushed : (writeAccelBuffer V).Gives { w with dirty := true } () { w with dirty := true } :=
        @writeAccelBufferIn_none _ V { w with dirty := true } idle V.stack
      obtain ⟨a, ready, inArray⟩ := initBuffer_reads cluster flushed dirtied.on.unread idle
      rw [pending_none idle, overlay_nil] at content
      rw [chunkBytes_of_gapless wf all gapless, content] at inArray
      obtain ⟨a', total, given, inArray'⟩ := write_array closed flushing (fun way => mark way.2.1) ready inArray part
      exact ⟨_, given, .array inArray' rfl, ⟨fun found => found, rfl⟩, rfl⟩
  · have direct : ¬ (w.buf.isNone ∧ w.reconstructed ∧ 1 < V.config.maxHashCluster) := by
      rw [Option.isNone_eq_false_iff.mpr inArray.buf]
      exact fun way => absurd way.1 Bool.false_ne_true
    have dirtied : InArray V c { w with dirty := true } :=
      ⟨inArray.closed, inArray.flushing, inArray.idle, inArray.hlAdded, inArray.buf, inArray.bar⟩
    obtain ⟨a, total, given, inArray'⟩ := write_array inArray.closed inArray.flushing direct
      (initBuffer_idle dirtied.idle dirtied.buf) dirtied part
    exact ⟨_, given, .array inArray' bar, ⟨fun found => found, rfl⟩, rfl⟩
  · exact absurd given (own b)

omit cuts ideal readable small enough cluster in
theorem Carries.write_whole (carries : Carries V c w) (idle : w.accelBuffer = none) (hlAdded : w.hlAdded = false)
    {b : Bytes} (length : b.length = V.config.chunkLength) :
    ∃ w', (WritableCacheBuffer.write V b 0).Gives w () w' ∧ Carries V (byteAt b) w' ∧ Follows V w w' ∧ w'.dirty = true := by
  have open_ := carries.open_
  obtain ⟨closed, flushing⟩ := not_or.mp open_
  have given := @WritableCacheBuffer.write_whole _ V w open_ ⟨b, 0⟩ (whole_iff.mpr ⟨rfl, length⟩)
  refine ⟨_, given, .whole b rfl rfl length (Bool.eq_false_iff.mpr closed) (Bool.eq_false_iff.mpr flushing) idle hlAdded rfl,
    ⟨fun found => found, rfl⟩, rfl⟩

/-! ### Reading -/

theorem InExtents.initBuffer (inExtents : InExtents V c w) (can : Flushable V w) :
    ∃ w', (WritableCacheBuffer.initBuffer V).Gives w () w' ∧ InArray V c w' ∧ w'.buf = some .bar ∧ Follows V w w' ∧
      w'.dirty = w.dirty := by
  obtain ⟨w₁, flushed, ⟨on₁, -, -⟩, idle, follows, dirty, -⟩ :=
    inExtents.flush cuts ideal readable small enough can
  obtain ⟨a, given, inArray⟩ := initBuffer_reads cluster flushed on₁.unread idle
  have content := on₁.content
  rw [pending_none idle, overlay_nil] at content
  rw [chunkBytes_of_gapless on₁.unread.wf on₁.unread.all on₁.gapless, content] at inArray
  exact ⟨_, given, inArray, rfl, ⟨follows.keeps, follows.direct⟩, dirty⟩

theorem Carries.getReadChunk (carries : Carries V c w) (own : ∀ b, w.buf ≠ some (.given b)) {startPos len : Int}
    (range : InChunk V startPos len) (can : CanRead V w startPos len) :
    ∃ b w', (WritableCacheBuffer.getReadChunk V startPos len).Gives w b w' ∧ Reads c startPos len b ∧ Carries V c w' ∧
      Follows V w w' ∧ w'.dirty = w.dirty ∧ (w.hlAdded = false → w'.hlAdded = false) := by
  rcases carries with ⟨inExtents, changed⟩ | ⟨inArray, bar⟩ | ⟨b, given, -⟩
  · have on := inExtents.on
    rw [CanRead] at can
    by_cases added : w.hlAdded = true
    · rw [if_pos added] at can
      obtain ⟨b, given, reads⟩ := getReadChunk_walked small enough on range added can.1 can.2
      exact ⟨b, w, given, reads, .extents inExtents changed, .refl w, rfl, id⟩
    · rw [if_neg added] at can
      have through {b : Bytes} {w' : WritableCacheBuffer σ} (given : (readChunk V startPos len).Gives w b w') :
          (WritableCacheBuffer.getReadChunk V startPos len).Gives w b w' := by
        rw [WritableCacheBuffer.getReadChunk]
        refine gives_get ?_
        rw [if_neg on.open_, if_neg added]
        exact given
      by_cases has : runHas w startPos len = true
      · rw [if_pos has] at can
        obtain ⟨b, given, reads⟩ := readChunk_run small on range has can
        exact ⟨b, w, through given, reads, .extents inExtents changed, .refl w, rfl, id⟩
      · rw [if_neg has] at can
        have closed : ¬ (w.flushing ∨ w.closed) := by simp [on.unread.closed, on.unread.flushing]
        obtain ⟨w', ready, inArray, bar, follows, dirty⟩ :=
          inExtents.initBuffer cuts ideal readable small enough cluster can
        obtain ⟨b, given, reads⟩ := readArray_gives ready inArray range
        refine ⟨b, w', through ?_, reads, .array inArray bar, follows, dirty, fun _ => inArray.hlAdded⟩
        rw [readChunk]
        refine gives_get ?_
        rw [if_neg closed, if_neg has]
        exact given
  · obtain ⟨b, given, reads⟩ := getReadChunk_array inArray range
    exact ⟨b, w, given, reads, .array inArray bar, .refl w, rfl, id⟩
  · exact absurd given (own b)

end

end EncryptedDedup.SDFS.WritableCacheBuffer
