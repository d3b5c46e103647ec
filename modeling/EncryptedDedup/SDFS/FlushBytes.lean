import EncryptedDedup.SDFS.BufferContents

/-!
# Closing a buffer

The record that `close` puts into the map of the file has the bytes that the buffer had.
-/

namespace EncryptedDedup.SDFS

open Program WritableCacheBuffer

variable {σ : Type} {V : Services σ}

/-! ### Services that count -/

theorem Services.Cuts.claiming (cuts : V.Cuts) : V.claiming.Cuts := ⟨cuts.all, cuts.filled, cuts.len⟩

theorem writeChunk_claiming {s s' : σ × Claims} {h c : Bytes} {hl : InsertRecord}
    (wrote : V.claiming.writeChunk s h c = some (s', hl)) : V.writeChunk s.1 h c = some (s'.1, hl) := by
  obtain ⟨⟨store, hl'⟩, there, same⟩ := Option.map_eq_some_iff.mp wrote
  obtain ⟨rfl, rfl⟩ := Prod.mk.inj same
  exact there

theorem Services.Ideal.claiming (ideal : V.Ideal) : V.claiming.Ideal := by
  refine ⟨fun {b f s s' hl} member wrote => ideal.fetched member (writeChunk_claiming wrote),
    fun {b f s s' hl} member wrote h l d c found => ?_⟩
  have found' : V.fetchChunk s.1 h l d = some c := found
  exact ideal.kept member (writeChunk_claiming wrote) found'

theorem Services.Readable.claiming (readable : V.Readable) : V.claiming.Readable :=
  ⟨fun wrote => readable.located (writeChunk_claiming wrote), fun member blank => readable.blank member blank⟩

theorem Services.Regular.claiming (regular : V.Regular) : V.claiming.Regular :=
  ⟨regular.few, regular.unique⟩

/-! ### Records -/

/-- The record has the bytes `c`, in no more extents than there is room for. -/
structure RecordOf (V : Services σ) (s : σ) (version : UInt8) (c : Int → Option UInt8) (ck : SparseDataChunk) : Prop where
  version : ck.version = version
  wf : ck.ar.WellFormed V.config.chunkLength
  all : AllStored V s ck.ar
  sized : ck.ar.AllSized
  few : ck.ar.size ≤ V.config.maxElementsPerAr
  contents : ∀ d, contents V s d ck.ar = c

theorem contents_direct {s : σ} {ar : Fingers} (wf : ar.WellFormed V.config.chunkLength) (all : AllStored V s ar) (d d' : Bool) :
    contents V s d ar = contents V s d' ar := by
  funext x
  cases denoted : ar.denotes x with
  | none => rw [contents_of_blank denoted, contents_of_blank denoted]
  | some q =>
    obtain ⟨k, h, stored, covered, -⟩ := (wf.denotes_iff x q).mp denoted
    obtain ⟨c, refers⟩ := all k h stored
    rw [contents_of_entry wf stored refers covered, contents_of_entry wf stored refers covered]

theorem recordOf_ofFingers {s : σ} {ar : Fingers} (wf : ar.WellFormed V.config.chunkLength) (all : AllStored V s ar)
    (sized : ar.AllSized) (few : ar.size ≤ V.config.maxElementsPerAr) (doop : Int) (version : UInt8) (d : Bool) :
    RecordOf V s version (contents V s d ar) (.ofFingers doop ar version) := by
  have same := wf.entry_ofValues
  have ascending := SparseDataChunk.ascending_of_keyed wf.keyed
  have size : (Fingers.ofValues ar.values).size ≤ V.config.maxElementsPerAr := by
    rw [← SparseDataChunk.length_values, Fingers.values_ofValues ascending, SparseDataChunk.length_values]
    exact few
  refine ⟨rfl, wf.ofValues, fun k h stored => all k h ((same k).symm.trans stored),
    fun k h stored => sized k h ((same k).symm.trans stored), size, fun d' => ?_⟩
  · rw [contents_direct wf all d d']
    funext x
    have denotes : (Fingers.ofValues ar.values).denotes x = ar.denotes x := by
      unfold Fingers.denotes
      rw [Fingers.values_ofValues ascending]
    change ((Fingers.ofValues ar.values).denotes x).bind _ = (ar.denotes x).bind _
    rw [denotes]

theorem RecordOf.keeps {s s' : σ} {version : UInt8} {c : Int → Option UInt8} {ck : SparseDataChunk}
    (record : RecordOf V s version c ck) (keeps : V.Keeps s s') : RecordOf V s' version c ck := by
  obtain ⟨same, wf, all, sized, few, contents⟩ := record
  refine ⟨same, wf, fun k h stored => ?_, sized, few, fun d => ?_⟩
  · obtain ⟨b, located, fetched, low, upto, short, blank⟩ := all k h stored
    exact ⟨b, located, fun d => keeps (fetched d), low, upto, short, blank⟩
  · rw [← contents d]
    exact (shows_contents (shows_keeps keeps (contents_shows wf all))).symm

namespace WritableCacheBuffer

/-! ### `close` -/

variable {w : WritableCacheBuffer (σ × Claims)} {version : UInt8} {order : List (Finger × Int) → List (Finger × Int)}

theorem flush_eq (open_ : ¬ (w.closed ∨ w.flushing)) (changed : w.dirty ∨ w.hlAdded) :
    w.flush = { w with flushing := true } := by
  unfold flush
  rw [if_neg (by tauto), if_pos changed]

theorem close_gives {w' : WritableCacheBuffer (σ × Claims)} {r : Option SparseDataChunk} (flushing : w.flushing = true)
    (given : (closeFlushing V version order).Gives w r w') : (close V version order).Gives w r w' := by
  unfold close
  refine gives_get ?_
  rw [if_pos flushing]
  exact Gives.handle given

theorem closeFlushing_extents {w₁ : WritableCacheBuffer (σ × Claims)} (flushed : (writeAccelBuffer V.claiming).Gives w () w₁)
    (closed : w₁.closed = false) (added : w₁.hlAdded = true) :
    (closeFlushing V version order).Gives w (some (.ofFingers V.config.chunkLength w₁.ar version))
      (afterClose { w₁ with store := (w₁.store.1, V.addRefs w₁.store.2 w₁.reReference), arCopy := none }) := by
  unfold closeFlushing
  refine Gives.bind flushed (gives_get ?_)
  rw [if_neg (by simp [closed]), if_pos added]
  exact gives_modify_bind (gives_modify_bind (gives_pure _ _))

theorem closeFlushing_array (cuts : V.Cuts) (ideal : V.Ideal) (readable : V.Readable) (regular : V.Regular)
    (small : V.config.chunkLength < 2 ^ 31) (shuffled : ∀ es, (order es).Perm es) (idle : w.accelBuffer = none)
    (closed : w.closed = false) (flushing : w.flushing = true) (hlAdded : w.hlAdded = false) (dirty : w.dirty = true)
    (buf : w.buf.isSome) {a : Bytes} (array : w.array = some a) (length : a.length = V.config.chunkLength)
    (writes : (V.writeFingers w.store (order ((Services.countFingers (V.getChunks a)).entries.map Prod.snd))).isSome) :
    ∃ w' ck, (closeFlushing V version order).Gives w (some ck) w' ∧ V.claiming.Keeps w.store w'.store ∧
      RecordOf V.claiming w'.store version (byteAt a) ck := by
  obtain ⟨s', hls, ps, wrote, laid, keeps, wf, all, sized, few, bytes⟩ :=
    Services.writeFingers_record cuts ideal readable regular small shuffled length writes
  have cached : (getFlushedBuffer V.claiming).Gives w a w := by
    unfold getFlushedBuffer
    refine gives_get ?_
    rw [if_neg (by simp [closed, flushing]), if_neg (by rw [Option.isNone_eq_false_iff.mpr buf]; exact Bool.false_ne_true)]
    refine Gives.bind (gives_pure () w) (gives_get ?_)
    rw [array]
    exact gives_pure a w
  have all' : AllStored V.claiming s' (.ofValues ps) := by
    intro k h stored
    obtain ⟨b, located, fetched, low, upto, short, blank⟩ := all k h stored
    exact ⟨b, located, fetched, low, upto, short, blank⟩
  have cache : (writeCache V version order).Gives w
      (.ofFingers ((ps.filter HashLocPair.dup).foldl (fun dups p => int (dups + p.len)) 0) (.ofValues ps) version)
      { w with
        store := (s'.1, V.addRefs s'.2 ({ w with store := s' } : WritableCacheBuffer (σ × Claims)).setAR)
        ar := .ofValues ps } := by
    unfold writeCache
    refine Gives.bind cached (gives_get ?_)
    dsimp only
    rw [wrote]
    refine gives_modify_bind ?_
    rw [laid]
    exact gives_modify_bind (gives_pure _ _)
  have done : (closeFlushing V version order).Gives w
      (some (.ofFingers ((ps.filter HashLocPair.dup).foldl (fun dups p => int (dups + p.len)) 0) (.ofValues ps) version))
      (afterClose { w with
        store := (s'.1, V.addRefs s'.2 ({ w with store := s' } : WritableCacheBuffer (σ × Claims)).setAR)
        ar := .ofValues ps }) := by
    unfold closeFlushing
    refine Gives.bind (writeAccelBufferIn_none idle V.stack) (gives_get ?_)
    rw [if_neg (by simp [closed]), if_neg (by simp [hlAdded]), if_pos dirty]
    exact Gives.bind cache (gives_modify_bind (gives_pure _ _))
  have record := @recordOf_ofFingers _ V.claiming s' (.ofValues ps) wf all' sized few
    ((ps.filter HashLocPair.dup).foldl (fun dups p => int (dups + p.len)) 0) version w.direct
  have same : contents V.claiming s' w.direct (.ofValues ps) = byteAt a := bytes w.direct
  rw [same] at record
  exact ⟨_, _, done, keeps, record.keeps fun found => found⟩

def CanCache (V : Services σ) (order : List (Finger × Int) → List (Finger × Int)) (w : WritableCacheBuffer (σ × Claims)) :
    Prop :=
  ∀ a, w.array = some a → (V.writeFingers w.store (order ((Services.countFingers (V.getChunks a)).entries.map Prod.snd))).isSome

/-- The record of a buffer that has changed has its bytes. -/
theorem Carries.close (cuts : V.Cuts) (ideal : V.Ideal) (readable : V.Readable) (regular : V.Regular)
    (small : V.config.chunkLength + 1 < 2 ^ 31) (positive : 0 < V.config.chunkLength)
    (enough : V.config.chunkLength.toNat < V.turns)
    (shuffled : ∀ es, (order es).Perm es) {c : Int → Option UInt8} (carries : Carries V.claiming c w)
    (can : Flushable V.claiming w) (cache : CanCache V order w) (changed : w.dirty ∨ w.hlAdded) :
    ∃ w' ck, (close V version order).Gives w.flush (some ck) w' ∧ V.claiming.Keeps w.store w'.store ∧
      RecordOf V.claiming w'.store version c ck := by
  have less : V.config.chunkLength < 2 ^ 31 := by omega
  rw [flush_eq carries.open_ changed]
  rcases carries with ⟨⟨on, sized, few⟩, moved⟩ | ⟨inArray, bar⟩ | ⟨b, given, same, length, closed, -, idle, hlAdded, dirty⟩
  · obtain ⟨⟨closed, -, -, wf, all⟩, -, -, inside, -, content⟩ := on
    obtain ⟨w₁, flushed, closed₁, added, keeps, wf₁, all₁, sized₁, few₁, bytes⟩ :
        ∃ w₁, (writeAccelBuffer V.claiming).Gives { w with flushing := true } () w₁ ∧ w₁.closed = false ∧ w₁.hlAdded = true ∧
          V.claiming.Keeps w.store w₁.store ∧ w₁.ar.WellFormed V.config.chunkLength ∧ AllStored V.claiming w₁.store w₁.ar ∧
          w₁.ar.AllSized ∧ w₁.ar.size ≤ V.config.maxElementsPerAr ∧
          contents V.claiming w₁.store w.direct w₁.ar = c := by
      rcases Option.eq_none_or_eq_some w.accelBuffer with run | ⟨r, run⟩
      · have added : w.hlAdded = true := by
          rcases changed with dirty | added
          · refine (moved dirty).resolve_left fun waits => ?_
            rw [run] at waits
            exact absurd waits Bool.false_ne_true
          · exact added
        rw [pending_none run, overlay_nil] at content
        exact ⟨_, @writeAccelBufferIn_none _ V.claiming { w with flushing := true } run V.stack, closed, added,
          fun found => found, wf, all, sized, few added, content⟩
      · have can' := can r run
        obtain ⟨w₁, flushed, frame, keeps, wf₁, all₁, sized₁, few₁, bytes⟩ :=
          @writeAccelBuffer_extents _ V.claiming { w with flushing := true } cuts.claiming ideal.claiming readable.claiming
            small enough r run wf all sized inside ⟨can'.writes, can'.room, can'.few⟩
        refine ⟨w₁, flushed, by rw [frame]; exact closed, by rw [frame], keeps, wf₁, all₁, sized₁, le_of_lt few₁, ?_⟩
        rw [pending_some run, overlay_singleton] at content
        rw [← content]
        exact bytes
    have record := @recordOf_ofFingers _ V.claiming _ _ wf₁ all₁ sized₁ few₁ V.config.chunkLength version w.direct
    rw [bytes] at record
    exact ⟨_, _, close_gives rfl (closeFlushing_extents flushed closed₁ added), keeps, record.keeps fun found => found⟩
  · have dirty : w.dirty = true := changed.resolve_right (by rw [inArray.hlAdded]; exact Bool.false_ne_true)
    obtain ⟨a, there, length, same⟩ := inArray.bar
    have array : w.array = some a := by
      unfold WritableCacheBuffer.array
      rw [bar]
      exact there
    obtain ⟨w', ck, given, keeps, record⟩ := @closeFlushing_array _ V { w with flushing := true } version order cuts ideal
      readable regular less shuffled inArray.idle inArray.closed rfl inArray.hlAdded dirty inArray.buf a array
      (by rw [length]; exact Int.toNat_of_nonneg (le_of_lt positive)) (cache a array)
    rw [same] at record
    exact ⟨w', ck, close_gives rfl given, keeps, record⟩
  · have array : w.array = some b := by
      unfold WritableCacheBuffer.array
      rw [given]
    obtain ⟨w', ck, given', keeps, record⟩ := @closeFlushing_array _ V { w with flushing := true } version order cuts ideal
      readable regular less shuffled idle closed rfl hlAdded dirty (by dsimp only; rw [given]; rfl) b array length (cache b array)
    rw [same] at record
    exact ⟨w', ck, close_gives rfl given', keeps, record⟩

end WritableCacheBuffer

end EncryptedDedup.SDFS
