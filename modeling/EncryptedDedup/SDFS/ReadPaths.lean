import EncryptedDedup.SDFS.ExtentWalk

/-!
# The read paths

A read is answered from the pending run, from the stored chunks or from the array. Over every run of partial
writes, copied extents and reads, where each step keeps to what the code expects, the three agree.
-/

namespace EncryptedDedup.SDFS.WritableCacheBuffer

open Program

variable {σ : Type} {V : Services σ} {c : Int → Option UInt8} {g : Int → Option UInt8} {w : WritableCacheBuffer σ}

/-- The bytes are in the extents and in the pending run over them. -/
structure OnExtents (V : Services σ) (c : Int → Option UInt8) (w : WritableCacheBuffer σ) : Prop where
  unread : Unread V w
  gapless : w.ar.Gapless V.config.chunkLength
  reconstructed : w.accelBuffer.isSome → w.reconstructed = true
  inside : RunInside V w
  ended : ∀ r, w.accelBuffer = some r → w.accelBuffEp ≤ w.accelBuffPos + r.length
  content : overlay (contents V w.store w.direct w.ar) (pending w) = c

/-- Where the bytes `c` of the chunk are. An array that is not dirty has the bytes of the extents. -/
inductive Holds (V : Services σ) (c : Int → Option UInt8) (w : WritableCacheBuffer σ) : Prop
  | extents (onExtents : OnExtents V c w)
  | array (inArray : InArray V c w) (clean : w.dirty = false → OnExtents V c { w with buf := none })

def Flushable (V : Services σ) (w : WritableCacheBuffer σ) : Prop := ∀ r, w.accelBuffer = some r → CanFlush V w r

/-- The pending run has none of the `len` bytes from `startPos` on. -/
def Apart (w : WritableCacheBuffer σ) (startPos len : Int) : Prop :=
  ∀ wr ∈ pending w, ∀ x, startPos ≤ x → x < startPos + len → wr.covers x = false

/-! ### Bytes in the extents -/

theorem gapless_of_shows {ar : Fingers} {s : σ} {d : Bool} (shown : Shows V s d ar (fun _ => none) g)
    (total : ∀ x, 0 ≤ x → x < V.config.chunkLength → (g x).isSome) : ar.Gapless V.config.chunkLength := by
  intro x low high
  have at_ := shown x
  obtain ⟨v, byte⟩ := Option.isSome_iff_exists.mp (total x low high)
  rw [byte] at at_
  obtain ⟨q, -, denoted, -⟩ := at_
  rw [denoted]
  rfl

theorem OnExtents.total (on : OnExtents V c w) {x : Int} (low : 0 ≤ x) (high : x < V.config.chunkLength) :
    (contents V w.store w.direct w.ar x).isSome := by
  rw [contents_isSome on.unread.wf on.unread.all]
  exact on.gapless x low high

theorem OnExtents.gathering (on : OnExtents V c w) (reconstructed : w.reconstructed = true) :
    Gathering V (Stored V) (fun _ => none) (contents V w.store w.direct w.ar) w :=
  ⟨on.unread.closed, on.unread.flushing, reconstructed, on.unread.buf, on.unread.wf,
    contents_shows on.unread.wf on.unread.all, on.unread.all, on.inside⟩

theorem Gathering.onExtents (gathering : Gathering V (Stored V) (fun _ => none) g w)
    (total : ∀ x, 0 ≤ x → x < V.config.chunkLength → (g x).isSome)
    (ended : ∀ r, w.accelBuffer = some r → w.accelBuffEp ≤ w.accelBuffPos + r.length) :
    OnExtents V (overlay g (pending w)) w := by
  obtain ⟨closed, flushing, reconstructed, buf, wf, shown, every, inside⟩ := gathering
  exact ⟨⟨closed, flushing, buf, wf, every⟩, gapless_of_shows shown total, fun _ => reconstructed, inside, ended,
    by rw [← shows_contents shown]⟩

theorem chunkBytes_of_gapless {ar : Fingers} {s : σ} {d : Bool} (wf : ar.WellFormed V.config.chunkLength)
    (all : AllStored V s ar) (gapless : ar.Gapless V.config.chunkLength) :
    chunkBytes V s d ar = contents V s d ar := by
  funext x
  rw [chunkBytes]
  split
  · rename_i range
    have there := contents_isSome (d := d) wf all x
    rw [gapless x range.1 range.2] at there
    obtain ⟨v, byte⟩ := Option.isSome_iff_exists.mp there
    rw [byte, Option.getD_some]
  · rename_i outside
    cases denoted : ar.denotes x with
    | none => rw [contents_of_blank denoted]
    | some q =>
      obtain ⟨k, h, stored, covered, -⟩ := (wf.denotes_iff x q).mp denoted
      have start := wf.extents.start stored
      have inside := wf.extents.inside stored
      rw [HashLocPair.covers_iff, wf.extents.keyed stored] at covered
      exact absurd ⟨by omega, by omega⟩ outside

theorem OnExtents.initBuffer (cuts : V.Cuts) (ideal : V.Ideal) (readable : V.Readable)
    (cluster : 1 < V.config.maxHashCluster) (small : V.config.chunkLength < 2 ^ 31)
    (enough : V.config.chunkLength.toNat ≤ V.turns) (on : OnExtents V c w) (can : Flushable V w) :
    ∃ w₁, (initBuffer V).Gives w () w₁ ∧ InArray V c w₁ ∧ OnExtents V c { w₁ with buf := none } := by
  obtain ⟨w', flushed, on', idle⟩ : ∃ w', (writeAccelBuffer V).Gives w () w' ∧ OnExtents V c w' ∧ w'.accelBuffer = none := by
    cases run : w.accelBuffer with
    | none => exact ⟨w, writeAccelBufferIn_none run V.stack, on, run⟩
    | some r =>
      have gathering := on.gathering (on.reconstructed (by rw [run]; rfl))
      obtain ⟨w', flushed, gathering', idle⟩ :=
        gathering.flush cuts ideal small enough (stored_tracked readable small) run (can r run)
      have on' := gathering'.onExtents (fun x low high => overlay_isSome (on.total low high) _)
        (fun r' run' => by rw [idle] at run'; cases run')
      rw [pending_none idle, overlay_nil, on.content] at on'
      exact ⟨w', flushed, on', idle⟩
  obtain ⟨a, given, inArray⟩ := initBuffer_reads cluster flushed on'.unread idle
  have content := on'.content
  rw [pending_none idle, overlay_nil] at content
  rw [chunkBytes_of_gapless on'.unread.wf on'.unread.all on'.gapless, content] at inArray
  obtain ⟨⟨closed, flushing, -, wf, all⟩, gapless, reconstructed, inside, ended, same⟩ := on'
  exact ⟨_, given, inArray, ⟨closed, flushing, rfl, wf, all⟩, gapless, reconstructed, inside, ended, same⟩

/-! ### Steps -/

/-- The calls on an open buffer. An extent is copied with the bytes it refers to. -/
inductive Op
  | write (wr : Write)
  | copyExtent (p : HashLocPair) (bytes : Bytes)
  | getReadChunk (startPos len : Int)

namespace Op

def run (V : Services σ) : Op → Method σ Unit
  | .write wr => WritableCacheBuffer.write V wr.bytes wr.pos
  | .copyExtent p _ => WritableCacheBuffer.copyExtent V p
  | .getReadChunk startPos len => do
    let _ ← WritableCacheBuffer.getReadChunk V startPos len
    pure ()

def writes : Op → List Write
  | .write wr => [wr]
  | .copyExtent p bytes => [⟨bytes, p.pos⟩]
  | .getReadChunk _ _ => []

def Fits (V : Services σ) (w : WritableCacheBuffer σ) : Op → Prop
  | .write wr => Partial V wr
  | .copyExtent p bytes => p.IsExtent ∧ p.pos + p.nlen ≤ V.config.chunkLength ∧
      ∃ b, Refers V w.store p b ∧ p.bytesOf b = bytes
  | .getReadChunk startPos len => InChunk V startPos len

end Op

/-- What a read needs. The walk does not look at the pending run, and a read from the run has to start where the
run does. -/
def CanRead (V : Services σ) (w : WritableCacheBuffer σ) (startPos len : Int) : Prop :=
  if w.hlAdded then Aligned V w startPos len ∧ Apart w startPos len
  else if runHas w startPos len then startPos = w.accelBuffPos
  else Flushable V w

def CanCopy (V : Services σ) (w : WritableCacheBuffer σ) (p : HashLocPair) : Prop :=
  if w.dirty ∧ w.buf.isSome then True
  else if V.config.maxElementsPerAr ≤ w.ar.size then Flushable V w
  else Room w.ar p.pos (p.pos + p.nlen) ∧ Apart w p.pos p.nlen

def Op.Allowed (V : Services σ) (w : WritableCacheBuffer σ) : Op → Prop
  | .write wr => Continues V w wr.pos
  | .copyExtent p _ => CanCopy V w p
  | .getReadChunk startPos len => CanRead V w startPos len

theorem OnExtents.open_ (on : OnExtents V c w) : ¬ (w.closed ∨ w.flushing) := by
  simp [on.unread.closed, on.unread.flushing]

theorem InArray.open_ (inArray : InArray V c w) : ¬ (w.closed ∨ w.flushing) := by
  simp [inArray.closed, inArray.flushing]

section

variable (cuts : V.Cuts) (ideal : V.Ideal) (readable : V.Readable) (cluster : 1 < V.config.maxHashCluster)
  (small : V.config.chunkLength + 1 < 2 ^ 31) (enough : V.config.chunkLength.toNat < V.turns)

include cuts ideal readable cluster small enough

theorem write_holds {wr : Write} (holds : Holds V c w) (part : Partial V wr) (continues : Continues V w wr.pos) :
    ∃ w', (write V wr.bytes wr.pos).Gives w () w' ∧ Holds V (written c wr) w' := by
  rcases holds with on | ⟨inArray, clean⟩
  · by_cases reconstructed : w.reconstructed = true
    · have less : V.config.chunkLength < 2 ^ 31 := by omega
      obtain ⟨g', w', given, gathered⟩ := write_gathering cuts ideal cluster less (le_of_lt enough)
        (stored_tracked readable less) (on.gathering reconstructed) part continues
      refine ⟨w', given, .extents ?_⟩
      rw [← on.content, ← gathered.overlaid]
      refine gathered.gathering.onExtents (fun x low high => ?_) (fun r run => ?_)
      · rcases gathered.extents with same | same
        · rw [same]
          exact on.total low high
        · rw [same]
          exact overlay_isSome (on.total low high) _
      · obtain ⟨r', run', long, end_⟩ := gathered.ended
        cases Option.some.inj (run.symm.trans run')
        obtain ⟨from_, upto⟩ := gathered.gathering.inside r run
        rw [end_, int_eq (by omega) (by omega)]
        omega
    · -- Without the mark the extents are read, and the write goes to the array.
      have idle : w.accelBuffer = none := by
        by_contra run
        exact reconstructed (on.reconstructed (Option.isSome_iff_ne_none.mpr run))
      have unread : Unread V { w with dirty := true } :=
        ⟨on.unread.closed, on.unread.flushing, on.unread.buf, on.unread.wf, on.unread.all⟩
      have flushed : (writeAccelBuffer V).Gives { w with dirty := true } () { w with dirty := true } :=
        @writeAccelBufferIn_none _ V { w with dirty := true } idle V.stack
      obtain ⟨a, ready, inArray⟩ := initBuffer_reads cluster flushed unread idle
      have content := on.content
      rw [pending_none idle, overlay_nil] at content
      rw [chunkBytes_of_gapless on.unread.wf on.unread.all on.gapless, content] at inArray
      obtain ⟨a', total, given, inArray'⟩ := write_array on.unread.closed on.unread.flushing
        (fun way => reconstructed way.2.1) ready inArray part
      exact ⟨_, given, .array inArray' fun clean => by cases clean⟩
  · have direct : ¬ (w.buf.isNone ∧ w.reconstructed ∧ 1 < V.config.maxHashCluster) := by
      rw [Option.isNone_eq_false_iff.mpr inArray.buf]
      exact fun way => absurd way.1 Bool.false_ne_true
    have dirtied : InArray V c { w with dirty := true } :=
      ⟨inArray.closed, inArray.flushing, inArray.idle, inArray.hlAdded, inArray.buf, inArray.bar⟩
    obtain ⟨a, total, given, inArray'⟩ := write_array inArray.closed inArray.flushing direct
      (initBuffer_idle dirtied.idle dirtied.buf) dirtied part
    exact ⟨_, given, .array inArray' fun clean => by cases clean⟩

omit cuts ideal readable cluster in
theorem getReadChunk_walked (on : OnExtents V c w) {startPos len : Int} (range : InChunk V startPos len)
    (added : w.hlAdded = true) (aligned : Aligned V w startPos len) (apart : Apart w startPos len) :
    ∃ b, (getReadChunk V startPos len).Gives w b w ∧ Reads c startPos len b := by
  obtain ⟨low, filled, upto⟩ := range
  have end_ : int (startPos + len) = startPos + len := int_eq (by omega) (by omega)
  obtain ⟨h, first⟩ := Option.isSome_iff_exists.mp aligned.starts
  have key : floorKey w.ar startPos = some startPos :=
    floorKey_of_entry on.unread.wf first (le_refl _) (Or.inl (by have := on.unread.wf.extents.filled first; omega))
  have nothing : Reads (contents V w.store w.direct w.ar) startPos ([] : Bytes).length [] :=
    ⟨rfl, fun i from_ less => absurd less (not_lt.mpr from_)⟩
  have missing : (([] : Bytes).length : Int) + len.toNat = len := by
    rw [List.length_nil]
    omega
  have place : startPos = startPos + ([] : Bytes).length := (add_zero startPos).symm
  obtain ⟨b, walked_, reads⟩ := walk_reads small on.unread.wf on.unread.all on.gapless ⟨low, filled, upto⟩
    aligned ⟨h, first⟩ place missing (by omega) (show len.toNat < V.turns by omega) nothing
  refine ⟨b, ?_, reads.1, fun i from_ less => ?_⟩
  · rw [getReadChunk]
    refine gives_get ?_
    rw [if_neg on.open_, if_pos added, if_neg (by omega), key]
    change walked V w (int (startPos + len)) startPos len.toNat w = _
    rw [walked, end_, ByteBuffer.allocate_eq, walked_]
    dsimp only
    rw [ByteBuffer.array_written]
  · rw [reads.2 i from_ less, ← on.content, overlay, latest_of_outside]
    exact fun wr member => apart wr member _ (by omega) (by omega)

omit cuts ideal readable cluster enough in
theorem readChunk_run (on : OnExtents V c w) {startPos len : Int} (range : InChunk V startPos len)
    (has : runHas w startPos len = true) (start : startPos = w.accelBuffPos) :
    ∃ b, (readChunk V startPos len).Gives w b w ∧ Reads c startPos len b := by
  obtain ⟨low, filled, upto⟩ := range
  have end_ : int (startPos + len) = startPos + len := int_eq (by omega) (by omega)
  have closed : ¬ (w.flushing ∨ w.closed) := by simp [on.unread.closed, on.unread.flushing]
  obtain ⟨r, run⟩ : ∃ r, w.accelBuffer = some r := by
    rw [runHas, Bool.and_eq_true, Bool.and_eq_true] at has
    exact Option.isSome_iff_exists.mp has.1.1
  have within : startPos + len ≤ w.accelBuffPos + r.length := by
    rw [runHas, Bool.and_eq_true, end_] at has
    exact le_trans (of_decide_eq_true has.2) (on.ended r run)
  have room : len.toNat ≤ r.length := by omega
  have first : w.accelBuffPos - startPos = 0 := by omega
  refine ⟨slice r 0 len.toNat, ?_, ?_, fun i from_ less => ?_⟩
  · rw [readChunk]
    refine gives_get ?_
    have given : readRun r 0 len.toNat = .ok (slice r 0 len.toNat) := by
      rw [readRun, ByteBuffer.seek, if_pos ⟨le_refl _, Int.natCast_nonneg _⟩]
      dsimp only
      rw [ByteBuffer.get, if_pos (by simp [ByteBuffer.wrap]; omega)]
      rfl
    rw [if_neg closed, if_pos has, if_neg (by omega), run, Option.getD_some, first, given]
    exact gives_pure _ w
  · rw [length_slice (by omega)]
    omega
  · have inside : w.accelBuffPos ≤ startPos + i ∧ startPos + i < w.accelBuffPos + r.length := by omega
    have covered : Write.covers ⟨r, w.accelBuffPos⟩ (startPos + i) = true := Write.covers_iff.mpr inside
    have place : startPos + i - w.accelBuffPos = i := by omega
    have byte := Write.byteAt_of_covers covered
    rw [place] at byte
    rw [← on.content, pending_some run, overlay_singleton, written, patch, if_pos covered, ← byte, byteAt_slice,
      if_pos (by omega), Nat.cast_zero, zero_add]

theorem getReadChunk_onExtents (on : OnExtents V c w) {startPos len : Int} (range : InChunk V startPos len)
    (can : CanRead V w startPos len) :
    ∃ b w', (getReadChunk V startPos len).Gives w b w' ∧ Reads c startPos len b ∧ Holds V c w' := by
  rw [CanRead] at can
  by_cases added : w.hlAdded = true
  · rw [if_pos added] at can
    obtain ⟨b, given, reads⟩ := getReadChunk_walked small enough on range added can.1 can.2
    exact ⟨b, w, given, reads, .extents on⟩
  · rw [if_neg added] at can
    have through {b : Bytes} {w' : WritableCacheBuffer σ} (given : (readChunk V startPos len).Gives w b w') :
        (getReadChunk V startPos len).Gives w b w' := by
      rw [getReadChunk]
      refine gives_get ?_
      rw [if_neg on.open_, if_neg added]
      exact given
    by_cases has : runHas w startPos len = true
    · rw [if_pos has] at can
      obtain ⟨b, given, reads⟩ := readChunk_run small on range has can
      exact ⟨b, w, through given, reads, .extents on⟩
    · rw [if_neg has] at can
      have closed : ¬ (w.flushing ∨ w.closed) := by simp [on.unread.closed, on.unread.flushing]
      obtain ⟨w₁, ready, inArray, on'⟩ :=
        on.initBuffer cuts ideal readable cluster (by have := range.2.1; omega) (le_of_lt enough) can
      obtain ⟨b, given, reads⟩ := readArray_gives ready inArray range
      refine ⟨b, w₁, through ?_, reads, .array inArray fun _ => on'⟩
      rw [readChunk]
      refine gives_get ?_
      rw [if_neg closed, if_neg has]
      exact given

theorem getReadChunk_holds (holds : Holds V c w) {startPos len : Int} (range : InChunk V startPos len)
    (can : CanRead V w startPos len) :
    ∃ b w', (getReadChunk V startPos len).Gives w b w' ∧ Reads c startPos len b ∧ Holds V c w' := by
  rcases holds with on | ⟨inArray, clean⟩
  · exact getReadChunk_onExtents cuts ideal readable cluster small enough on range can
  · obtain ⟨b, given, reads⟩ := getReadChunk_array inArray range
    exact ⟨b, w, given, reads, .array inArray clean⟩

/-! ### Copying an extent -/

omit cuts ideal cluster in
theorem copyReference_onExtents (on : OnExtents V c w) {p : HashLocPair} {b : Bytes} (extent : p.IsExtent)
    (fits : p.pos + p.nlen ≤ V.config.chunkLength) (refers : Refers V w.store p b)
    (room : Room w.ar p.pos (p.pos + p.nlen)) (apart : Apart w p.pos p.nlen) :
    ∃ w', (copyReference V p).Gives w () w' ∧ OnExtents V (written c ⟨p.bytesOf b, p.pos⟩) w' := by
  obtain ⟨⟨closed, flushing, buf, wf, all⟩, gapless, reconstructed, inside, ended, content⟩ := on
  have less : V.config.chunkLength < 2 ^ 31 := by omega
  obtain ⟨ar', finished, wf', denotes, -⟩ := Fingers.inserted_of_safe less wf extent fits room (le_of_lt enough)
  have all' : AllStored V w.store ar' := Fingers.every_inserted ((stored_tracked readable less).cut _) less wf extent fits room
    (le_of_lt enough) all ⟨b, refers⟩ finished
  have length : p.nlen = (p.bytesOf b).length := (length_bytesOf refers.low (le_of_lt extent.2.2.1) refers.inside).symm
  have shown : Shows V w.store w.direct ar' (fun _ => none)
      (written (contents V w.store w.direct w.ar) ⟨p.bytesOf b, p.pos⟩) := by
    refine shows_patch (contents_shows wf all) denotes length ?_
    intro x v covered byte
    refine ⟨b, refers.fetched w.direct, ?_⟩
    rw [refers.offset_eq covered, ← byteAt_bytesOf refers.low covered]
    exact byte
  have total : ∀ x, 0 ≤ x → x < V.config.chunkLength →
      (written (contents V w.store w.direct w.ar) ⟨p.bytesOf b, p.pos⟩ x).isSome := by
    intro x low high
    rw [← overlay_singleton]
    refine overlay_isSome ?_ _
    rw [contents_isSome wf all]
    exact gapless x low high
  refine ⟨{ w with reconstructed := true, hlAdded := true, ar := ar' }, ?_, ⟨closed, flushing, buf, wf', all'⟩,
    gapless_of_shows shown total, fun _ => rfl, inside, ended, ?_⟩
  · rw [copyReference]
    refine Gives.handle ?_
    rw [insertReference]
    refine gives_modify_bind (insertHashLocPair_gives ?_)
    exact finished
  · -- The extent goes under the pending run, which it does not meet.
    have same : pending ({ w with reconstructed := true, hlAdded := true, ar := ar' } : WritableCacheBuffer σ) = pending w := rfl
    rw [same, ← shows_contents shown, ← content]
    cases run : w.accelBuffer with
    | none => rw [pending_none run, overlay_nil, overlay_nil]
    | some r =>
      rw [pending_some run, overlay_singleton, overlay_singleton]
      refine patch_comm fun x both => ?_
      have covered := Write.covers_iff.mp both.1
      dsimp only at covered
      have free := apart ⟨r, w.accelBuffPos⟩ (by rw [pending_some run]; exact List.mem_singleton_self _) x covered.1 (by omega)
      rw [free] at both
      exact Bool.false_ne_true both.2

omit cuts ideal readable cluster small enough in
theorem part_bytesOf {s : σ} {p : HashLocPair} {b : Bytes} (filled : 0 ≤ p.nlen) (refers : Refers V s p b) :
    part p b = .ok (p.bytesOf b) := by
  have low := refers.low
  have inside := refers.inside
  have sought : (ByteBuffer.wrap b).seek p.offset = some ⟨b, p.offset.toNat⟩ := by
    refine if_pos ⟨low, ?_⟩
    simp only [ByteBuffer.wrap]
    omega
  have got : (ByteBuffer.mk b p.offset.toNat).get p.nlen.toNat =
      some (slice b p.offset.toNat p.nlen.toNat, ⟨b, p.offset.toNat + p.nlen.toNat⟩) := by
    refine if_pos ?_
    dsimp only
    omega
  rw [part, if_neg (not_lt.mpr filled), sought]
  dsimp only
  rw [got]
  rfl

omit cuts ideal readable cluster small enough in
theorem copyBytes_array {w₁ : WritableCacheBuffer σ} (ready : (initBuffer V).Gives w () w₁) (inArray : InArray V c w₁)
    {p : HashLocPair} {b : Bytes} (extent : p.IsExtent) (fits : p.pos + p.nlen ≤ V.config.chunkLength)
    (refers : Refers V w.store p b) :
    ∃ w', (copyBytes V p).Gives w () w' ∧ InArray V (written c ⟨p.bytesOf b, p.pos⟩) w' ∧ w'.dirty = true := by
  have length := length_bytesOf refers.low (le_of_lt extent.2.2.1) refers.inside
  obtain ⟨a, given, inArray'⟩ := @writeBlock_gives _ _ _ _ _ ready inArray ⟨p.bytesOf b, p.pos⟩ extent.1 (by
    dsimp only
    omega)
  refine ⟨{ w₁ with bar := some a, hlAdded := false, dirty := true, reconstructed := false }, ?_,
    ⟨inArray'.closed, inArray'.flushing, inArray'.idle, rfl, inArray'.buf, inArray'.bar⟩, rfl⟩
  rw [copyBytes]
  refine gives_get ?_
  rw [refers.chunkOf]
  dsimp only
  rw [part_bytesOf (le_of_lt extent.2.2.1) refers]
  exact Gives.bind given (gives_modify _ _)

theorem copyExtent_holds (holds : Holds V c w) {p : HashLocPair} {b : Bytes} (extent : p.IsExtent)
    (fits : p.pos + p.nlen ≤ V.config.chunkLength) (refers : Refers V w.store p b) (can : CanCopy V w p) :
    ∃ w', (copyExtent V p).Gives w () w' ∧ Holds V (written c ⟨p.bytesOf b, p.pos⟩) w' := by
  -- What is left of the call once the array is dropped or kept.
  have through {buf : Option Wrapped} {w' : WritableCacheBuffer σ} (open_ : ¬ (w.closed ∨ w.flushing))
      (kept : (if w.dirty then w.buf else none) = buf)
      (given : (if buf.isSome ∨ V.config.maxElementsPerAr ≤ w.ar.size then copyBytes V p else copyReference V p).Gives
        { w with buf := buf, arCopy := w.arCopy <|> some w.ar.tree } () w') : (copyExtent V p).Gives w () w' := by
    rw [copyExtent]
    refine gives_get ?_
    rw [if_neg open_]
    refine gives_modify_bind (gives_get ?_)
    rw [kept]
    exact given
  have onExtents (open_ : ¬ (w.closed ∨ w.flushing)) (on : OnExtents V c { w with buf := none })
      (dropped : (if w.dirty then w.buf else none) = none) (notDirty : ¬ (w.dirty ∧ w.buf.isSome)) :
      ∃ w', (copyExtent V p).Gives w () w' ∧ Holds V (written c ⟨p.bytesOf b, p.pos⟩) w' := by
    have on' : OnExtents V c { w with buf := none, arCopy := w.arCopy <|> some w.ar.tree } := by
      obtain ⟨⟨closed, flushing, -, wf, all⟩, gapless, reconstructed, inside, ended, content⟩ := on
      exact ⟨⟨closed, flushing, rfl, wf, all⟩, gapless, reconstructed, inside, ended, content⟩
    rw [CanCopy, if_neg notDirty] at can
    split at can
    · rename_i full
      have can' : Flushable V { w with buf := none, arCopy := w.arCopy <|> some w.ar.tree } := fun r run =>
        ⟨(can r run).writes, (can r run).room, (can r run).few⟩
      obtain ⟨w₁, ready, inArray, -⟩ := on'.initBuffer cuts ideal readable cluster (by omega) (le_of_lt enough) can'
      obtain ⟨w', given, inArray', dirty⟩ := copyBytes_array ready inArray extent fits refers
      refine ⟨w', through open_ dropped ?_, .array inArray' fun clean => ?_⟩
      · rw [if_pos (Or.inr full)]
        exact given
      · rw [dirty] at clean
        cases clean
    · rename_i few
      obtain ⟨w', given, on''⟩ := copyReference_onExtents readable small enough on' extent fits refers can.1 can.2
      refine ⟨w', through open_ dropped ?_, .extents on''⟩
      rw [if_neg (by rintro (kept | full); exacts [Bool.false_ne_true kept, few full])]
      exact given
  rcases holds with on | ⟨inArray, clean⟩
  · have here : ({ w with buf := none } : WritableCacheBuffer σ) = w := by rw [← on.unread.buf]
    have none_ : ¬ (w.dirty ∧ w.buf.isSome) := by
      rw [on.unread.buf]
      exact fun both => Bool.false_ne_true both.2
    refine onExtents on.open_ (by rw [here]; exact on) ?_ none_
    rw [on.unread.buf]
    exact ite_self _
  · by_cases dirty : w.dirty = true
    · have kept : InArray V c { w with buf := w.buf, arCopy := w.arCopy <|> some w.ar.tree } :=
        ⟨inArray.closed, inArray.flushing, inArray.idle, inArray.hlAdded, inArray.buf, inArray.bar⟩
      obtain ⟨w', given, inArray', dirty'⟩ := copyBytes_array (initBuffer_idle kept.idle kept.buf) kept extent fits refers
      refine ⟨w', through inArray.open_ (if_pos dirty) ?_, .array inArray' fun clean' => ?_⟩
      · rw [if_pos (Or.inl inArray.buf)]
        exact given
      · rw [dirty'] at clean'
        cases clean'
    · exact onExtents inArray.open_ (clean (Bool.eq_false_iff.mpr dirty)) (if_neg dirty) fun both => dirty both.1

/-! ### Runs -/

theorem op_holds (holds : Holds V c w) {op : Op} (fits : op.Fits V w) (allowed : op.Allowed V w) :
    ∃ w', (op.run V).Gives w () w' ∧ Holds V (overlay c op.writes) w' := by
  cases op with
  | write wr =>
    rw [Op.writes, overlay_singleton]
    exact write_holds cuts ideal readable cluster small enough holds fits allowed
  | copyExtent p bytes =>
    obtain ⟨extent, inside, b, refers, rfl⟩ := fits
    rw [Op.writes, overlay_singleton]
    exact copyExtent_holds cuts ideal readable cluster small enough holds extent inside refers allowed
  | getReadChunk startPos len =>
    obtain ⟨b, w', given, -, holds'⟩ := getReadChunk_holds cuts ideal readable cluster small enough holds fits allowed
    exact ⟨w', Gives.bind given (gives_pure () w'), holds'⟩

omit cuts ideal readable cluster small enough

def runAll (V : Services σ) : List Op → Method σ Unit
  | [] => pure ()
  | op :: ops => do
    op.run V
    runAll V ops

/-- Every call is one within the chunk, and finds the buffer in a state it expects. -/
def AllAllowed (V : Services σ) : WritableCacheBuffer σ → List Op → Prop
  | _, [] => True
  | w, op :: ops => op.Fits V w ∧ op.Allowed V w ∧ ∀ w', (op.run V).Gives w () w' → AllAllowed V w' ops

include cuts ideal readable cluster small enough

theorem runAll_holds {ops : List Op} (holds : Holds V c w) (all : AllAllowed V w ops) :
    ∃ w', (runAll V ops).Gives w () w' ∧ Holds V (overlay c (ops.flatMap Op.writes)) w' := by
  induction ops generalizing w c with
  | nil => exact ⟨w, gives_pure () w, holds⟩
  | cons op ops ih =>
    obtain ⟨fits, allowed, later⟩ := all
    obtain ⟨w₁, given, holds₁⟩ := op_holds cuts ideal readable cluster small enough holds fits allowed
    obtain ⟨w', rest, holds'⟩ := ih holds₁ (later w₁ given)
    refine ⟨w', Gives.bind given rest, ?_⟩
    rw [List.flatMap_cons, overlay_append]
    exact holds'

/-- After every run of calls in the states they expect, a read gives the bytes of the extents with the writes of the
run over them, from wherever it takes them. -/
theorem getReadChunk_content {store : σ} {ar : Fingers} {newChunk reconstructed direct : Bool} {prevDoop : Int}
    (wf : ar.WellFormed V.config.chunkLength) (gapless : ar.Gapless V.config.chunkLength) (all : AllStored V store ar)
    {ops : List Op} (allowed : AllAllowed V (open_ (ofDedupChunk V store ar newChunk prevDoop reconstructed direct)) ops) :
    ∃ w, (runAll V ops).Gives (open_ (ofDedupChunk V store ar newChunk prevDoop reconstructed direct)) () w ∧
      ∀ startPos len, InChunk V startPos len → CanRead V w startPos len →
        ∃ b w', (getReadChunk V startPos len).Gives w b w' ∧
          Reads (overlay (contents V store direct ar) (ops.flatMap Op.writes)) startPos len b := by
  have start : OnExtents V (contents V store direct ar)
      (open_ (ofDedupChunk V store ar newChunk prevDoop reconstructed direct)) :=
    ⟨⟨rfl, rfl, rfl, wf, all⟩, gapless, fun run => (by cases run), fun r run => (by cases run),
      fun r run => (by cases run), rfl⟩
  obtain ⟨w, given, holds⟩ := runAll_holds cuts ideal readable cluster small enough (.extents start) allowed
  refine ⟨w, given, fun startPos len range can => ?_⟩
  obtain ⟨b, w', read, reads, -⟩ := getReadChunk_holds cuts ideal readable cluster small enough holds range can
  exact ⟨b, w', read, reads⟩

end

def wholeChunk : HashLocPair := ⟨sampleHash letters, lettersLocation, 16384, 0, 0, 16384, false, false⟩

def wholeExtent : Fingers := Fingers.empty.put 0 wholeChunk

theorem sampleHash_zeros : sampleHash (List.replicate 4096 0) =
    [98, 15, 11, 103, 169, 31, 127, 116, 21, 27, 197, 190, 116, 91, 113, 16] := by
  have length : (List.replicate 4096 (0 : UInt8)).length = 4096 := List.length_replicate ..
  have other (c : Bytes) (short : c.length ≤ 4) : List.replicate 4096 (0 : UInt8) ≠ c := fun same => by
    rw [same] at length
    omega
  unfold sampleHash
  rw [if_neg (other [97, 98, 99] (by decide)), if_neg (other [97, 98, 99, 100] (by decide)),
    if_neg (other [120, 121, 122] (by decide)), if_neg (other (List.replicate 4 0) (by decide)), if_pos rfl]

theorem sampleHash_blank {c : Bytes} (blank : sampleHash c = sample.bk) : c = sample.blankBlock := by
  have size : sample.config.minLen + 1 = 4096 := rfl
  have engine : sample.getHash = sampleHash := rfl
  rw [Services.bk, engine, Services.blankBlock, size, sampleHash_zeros] at blank
  by_contra other
  unfold sampleHash at blank
  rw [if_neg (show c ≠ List.replicate 4096 0 from other)] at blank
  split_ifs at blank <;> exact absurd blank (by decide)

theorem ofLE_reverse_ne_zero {b : UInt8} {bs : Bytes} (first : b ≠ 0) : ofLE (b :: bs).reverse ≠ 0 := by
  intro zero
  have byte : b.toNat = 0 := by
    rw [List.reverse_cons, ofLE_append, ofLE, ofLE, Nat.mul_zero, Nat.add_zero] at zero
    have weight := Nat.pow_pos (n := bs.reverse.length) (show 0 < 256 by decide)
    exact (Nat.mul_eq_zero.mp (Nat.eq_zero_of_add_eq_zero_left zero)).resolve_left weight.ne'
  exact first (UInt8.toNat_inj.mp byte)

theorem sampleLocation_located {c : Bytes} (short : c.length ≤ 7) : ofLE ((sampleLocation c).take 8).reverse ≠ 0 := by
  unfold sampleLocation
  rw [List.take_succ_cons]
  apply ofLE_reverse_ne_zero
  intro zero
  have byte : (UInt8.ofNat (c.length + 1)).toNat = c.length + 1 := by
    rw [UInt8.toNat_ofNat']
    omega
  rw [zero] at byte
  exact absurd byte (Nat.succ_ne_zero _).symm

theorem sample_readable : sample.Readable := by
  refine ⟨?_, ?_⟩
  · intro _ _ c _ _ wrote
    obtain ⟨short, rfl⟩ := writeChunk_sample wrote
    exact sampleLocation_located short
  · intro b f member blank
    obtain ⟨-, rfl⟩ := mem_sample_chunks member
    exact sampleHash_blank blank

theorem sample_fetch {c : Bytes} (short : c.length ≤ 7) (h : Bytes) (d : Bool) :
    sample.fetchChunk () h (sampleLocation c) d = some c := atLocation_sampleLocation short

theorem wholeExtent_wellFormed : wholeExtent.WellFormed 16384 := by
  refine ((Fingers.empty_wellFormed 16384).put (p := wholeChunk) (by decide) (by decide) (by decide) ?_).1
  intro _ _ found
  cases found

theorem wholeExtent_entry (k : Int) : wholeExtent.entry k = if k = 0 then some wholeChunk else none :=
  Fingers.entry_put (Fingers.empty_wellFormed 16384).allocated 0 k wholeChunk

theorem wholeExtent_gapless : wholeExtent.Gapless 16384 := by
  intro x low high
  have covered : wholeChunk.covers x = true := HashLocPair.covers_iff.mpr ⟨low, by change x < 0 + 16384; omega⟩
  rw [(wholeExtent_wellFormed.denotes_iff x _).mpr ⟨0, wholeChunk, wholeExtent_entry 0, covered, rfl⟩]
  rfl

theorem wholeExtent_stored : AllStored sample () wholeExtent := by
  intro k h stored
  rw [wholeExtent_entry] at stored
  split at stored
  · obtain rfl := Option.some.inj stored
    have length : (letters.length : Int) = 16384 := by
      rw [letters, List.length_replicate, Nat.cast_ofNat]
    have hash : wholeChunk.hash = sampleHash letters := by simp only [wholeChunk]
    refine ⟨letters, by decide, fun d => rfl, le_refl _, ?_, ?_, fun blank => sampleHash_blank (hash ▸ blank)⟩
    · rw [length]
      decide
    · omega
  · cases stored

theorem getReadChunk_content_run :
    ∃ w b w', (write sample [97, 98, 99] 100).Gives (sampleBuffer wholeExtent) () w ∧
      (getReadChunk sample 100 2).Gives w b w' ∧
      Reads (overlay (contents sample () true wholeExtent) [⟨[97, 98, 99], 100⟩]) 100 2 b := by
  have allowed : AllAllowed sample (sampleBuffer wholeExtent) [.write ⟨[97, 98, 99], 100⟩] :=
    ⟨⟨by decide, by decide, by decide⟩, fun r run => (by cases run), fun _ _ => trivial⟩
  obtain ⟨w, given, reads⟩ := getReadChunk_content sample_cuts sample_ideal sample_readable (by decide) (by decide)
    (by decide) wholeExtent_wellFormed wholeExtent_gapless wholeExtent_stored allowed
  obtain ⟨w₁, run, added, has, pos⟩ : ∃ w₁, (write sample [97, 98, 99] 100).Gives (sampleBuffer wholeExtent) () w₁ ∧
      w₁.hlAdded = false ∧ runHas w₁ 100 2 = true ∧ w₁.accelBuffPos = 100 := ⟨_, rfl, rfl, rfl, rfl⟩
  obtain ⟨-, rfl⟩ := given.unique (Gives.bind run (gives_pure () w₁))
  have can : CanRead sample w 100 2 := by
    rw [CanRead, if_neg (by rw [added]; exact Bool.false_ne_true), if_pos has, pos]
  obtain ⟨b, w', read, reads'⟩ := reads 100 2 ⟨by decide, by decide, by decide⟩ can
  exact ⟨w, b, w', run, read, reads'⟩

/-- A read that starts inside the pending run. -/
theorem getReadChunk_insideRun :
    wholeExtent.WellFormed 16384 ∧ wholeExtent.Gapless 16384 ∧ AllStored sample () wholeExtent ∧
      ∃ w, (write sample [97, 98, 99] 100).Gives (sampleBuffer wholeExtent) () w ∧
        (getReadChunk sample 101 1).Throws w .illegalArgument w :=
  ⟨wholeExtent_wellFormed, wholeExtent_gapless, wholeExtent_stored, _, rfl, rfl⟩

end EncryptedDedup.SDFS.WritableCacheBuffer
