import EncryptedDedup.SDFS.RecordPut
import EncryptedDedup.SDFS.ReadPaths
import EncryptedDedup.SDFS.ReferenceConservation

/-!
# Copying into a buffer

The bytes of a buffer are in the array, or in the extents and the pending run over them, with zeros between.
-/

namespace EncryptedDedup.SDFS.WritableCacheBuffer

open Program

variable {σ : Type} (V : Services σ)

/-- The bytes of a chunk, with zeros where `g` has none. -/
def inChunk (g : Int → Option UInt8) (x : Int) : Option UInt8 :=
  if 0 ≤ x ∧ x < V.config.chunkLength then some ((g x).getD 0) else none

/-- The bytes of the chunk that a buffer has. -/
def bytes (w : WritableCacheBuffer σ) : Int → Option UInt8 :=
  match w.buf with
  | none => inChunk V (overlay (contents V w.store w.direct w.ar) (pending w))
  | some .bar => byteAt (w.bar.getD [])
  | some (.given b) => byteAt b

/-- A buffer with its bytes in the extents and in the pending run. -/
structure OnChunk (w : WritableCacheBuffer σ) : Prop where
  unread : Unread V w
  reconstructed : w.accelBuffer.isSome → w.reconstructed = true
  inside : RunInside V w

/-- An open buffer. An array that is not dirty has the bytes of the extents. -/
inductive Intact (w : WritableCacheBuffer σ) : Prop
  | extents (onChunk : OnChunk V w)
  | array (inArray : InArray V (bytes V w) w) (bar : w.buf = some .bar)
      (clean : w.dirty = false → OnChunk V { w with buf := none } ∧ bytes V { w with buf := none } = bytes V w)
  | whole (b : Bytes) (given : w.buf = some (.given b)) (closed : w.closed = false) (flushing : w.flushing = false)

/-- The pending run can be written, and the bytes are not in the array of a caller. -/
structure Prepared (w : WritableCacheBuffer σ) : Prop where
  flushable : Flushable V w
  own : ∀ b, w.buf ≠ some (.given b)

/-- The bytes are in the array, or the extent is inside no other. -/
def Spliceable (w : WritableCacheBuffer σ) (p : HashLocPair) : Prop :=
  (w.dirty ∧ w.buf.isSome) ∨ V.config.maxElementsPerAr ≤ w.ar.size ∨ Room w.ar p.pos (p.pos + p.nlen)

variable {V} {w w' : WritableCacheBuffer σ} {g : Int → Option UInt8}

theorem bytes_extents (buf : w.buf = none) :
    bytes V w = inChunk V (overlay (contents V w.store w.direct w.ar) (pending w)) := by
  unfold bytes
  rw [buf]

theorem bytes_array (buf : w.buf = some .bar) {a : Bytes} (bar : w.bar = some a) : bytes V w = byteAt a := by
  unfold bytes
  rw [buf, bar]
  rfl

theorem chunkBytes_eq (s : σ) (d : Bool) (ar : Fingers) : chunkBytes V s d ar = inChunk V (contents V s d ar) := rfl

theorem inChunk_written {wr : Write} (low : 0 ≤ wr.pos) (inside : wr.pos + wr.bytes.length ≤ V.config.chunkLength) :
    inChunk V (written g wr) = written (inChunk V g) wr := by
  funext x
  unfold inChunk written patch
  by_cases covered : wr.covers x = true
  · have range := Write.covers_iff.mp covered
    rw [if_pos covered, if_pos covered, if_pos (by omega), ← Write.byteAt_of_covers covered]
    obtain ⟨v, byte⟩ := byteAt_of_lt (show 0 ≤ x - wr.pos by omega) (show x - wr.pos < wr.bytes.length by omega)
    rw [byte]
    rfl
  · rw [if_neg covered, if_neg covered]

theorem OnChunk.open_ (on : OnChunk V w) : ¬ (w.closed ∨ w.flushing) := by
  simp [on.unread.closed, on.unread.flushing]

theorem Intact.open_ (intact : Intact V w) : ¬ (w.closed ∨ w.flushing) := by
  rcases intact with on | ⟨inArray, -, -⟩ | ⟨b, -, closed, flushing⟩
  · exact on.open_
  · exact inArray.open_
  · simp [closed, flushing]

theorem InArray.bytes_eq (inArray : InArray V g w) (bar : w.buf = some .bar) : bytes V w = g := by
  obtain ⟨a, there, -, same⟩ := inArray.bar
  rw [bytes_array bar there, same]

theorem InArray.intact (inArray : InArray V g w) (bar : w.buf = some .bar) (dirty : w.dirty = true) : Intact V w := by
  refine .array (by rwa [inArray.bytes_eq bar]) bar fun clean => ?_
  rw [dirty] at clean
  cases clean

/-! ### Loaded buffers -/

theorem intact_zeros (s : σ) (d reconstructed : Bool) :
    Intact V { (ofFile V s Fingers.empty false d).open_ with reconstructed := reconstructed } ∧
      bytes V { (ofFile V s Fingers.empty false d).open_ with reconstructed := reconstructed } = inChunk V fun _ => none := by
  have zero : bytes V { (ofFile V s Fingers.empty false d).open_ with reconstructed := reconstructed } =
      inChunk V fun _ => none := by
    rw [bytes_array rfl rfl]
    funext x
    unfold inChunk byteAt
    by_cases low : 0 ≤ x
    · by_cases high : x < V.config.chunkLength
      · rw [if_pos low, if_pos ⟨low, high⟩, List.getElem?_replicate, if_pos (by omega)]
        rfl
      · rw [if_pos low, if_neg (by omega), List.getElem?_replicate, if_neg (by omega)]
    · rw [if_neg low, if_neg (by omega)]
  refine ⟨.array ⟨rfl, rfl, rfl, rfl, rfl, ?_⟩ rfl fun _ => ⟨⟨⟨rfl, rfl, rfl, Fingers.empty_wellFormed _, ?_⟩, ?_, ?_⟩, ?_⟩, zero⟩
  · exact ⟨_, rfl, List.length_replicate, rfl⟩
  · intro k h stored
    cases stored
  · intro waits
    cases waits
  · intro r waits
    cases waits
  · rw [zero, bytes_extents rfl]
    rfl

/-! ### Another store -/

theorem stored_keeps {s s' : σ} (keeps : V.Keeps s s') {h : HashLocPair} (stored : Stored V s h) : Stored V s' h := by
  obtain ⟨c, located, fetched, low, inside, short, blank⟩ := stored
  exact ⟨c, located, fun d => keeps (fetched d), low, inside, short, blank⟩

theorem contents_keeps {s s' : σ} (keeps : V.Keeps s s') {ar : Fingers} (wf : ar.WellFormed V.config.chunkLength)
    (all : AllStored V s ar) (d : Bool) : contents V s' d ar = contents V s d ar :=
  (shows_contents (shows_keeps keeps (contents_shows wf all))).symm

theorem OnChunk.keeps (on : OnChunk V w) {s' : σ} (keeps : V.Keeps w.store s') :
    OnChunk V { w with store := s' } ∧ bytes V { w with store := s' } = bytes V w := by
  obtain ⟨⟨closed, flushing, buf, wf, all⟩, reconstructed, inside⟩ := on
  refine ⟨⟨⟨closed, flushing, buf, wf, fun k h stored => stored_keeps keeps (all k h stored)⟩, reconstructed, inside⟩, ?_⟩
  rw [bytes_extents buf, bytes_extents (by exact buf)]
  dsimp only
  rw [contents_keeps keeps wf all]
  rfl

theorem Intact.keeps (intact : Intact V w) {s' : σ} (keeps : V.Keeps w.store s') :
    Intact V { w with store := s' } ∧ bytes V { w with store := s' } = bytes V w := by
  rcases intact with on | ⟨⟨closed, flushing, idle, hlAdded, buf, array⟩, bar, clean⟩ | ⟨b, given, closed, flushing⟩
  · obtain ⟨on', same⟩ := on.keeps keeps
    exact ⟨.extents on', same⟩
  · have same : bytes V { w with store := s' } = bytes V w := by
      unfold bytes
      dsimp only
      rw [bar]
    refine ⟨.array ⟨closed, flushing, idle, hlAdded, buf, by rwa [same]⟩ bar fun clean' => ?_, same⟩
    obtain ⟨on, here⟩ := clean clean'
    obtain ⟨on', here'⟩ := on.keeps keeps
    exact ⟨on', (here'.trans here).trans same.symm⟩
  · refine ⟨.whole b given closed flushing, ?_⟩
    unfold bytes
    dsimp only
    rw [given]

/-! ### The mark for partial writes -/

theorem OnChunk.mark (on : OnChunk V w) {r : Bool} (marked : w.reconstructed = true → r = true) :
    OnChunk V { w with reconstructed := r } :=
  ⟨⟨on.unread.closed, on.unread.flushing, on.unread.buf, on.unread.wf, on.unread.all⟩,
    fun waits => marked (on.reconstructed waits), on.inside⟩

theorem Intact.mark (intact : Intact V w) {r : Bool} (marked : w.reconstructed = true → r = true) :
    Intact V { w with reconstructed := r } := by
  rcases intact with on | ⟨inArray, bar, clean⟩ | ⟨b, given, closed, flushing⟩
  · exact .extents (on.mark marked)
  · exact .array ⟨inArray.closed, inArray.flushing, inArray.idle, inArray.hlAdded, inArray.buf, inArray.bar⟩ bar
      fun clean' => ⟨(clean clean').1.mark marked, (clean clean').2⟩
  · exact .whole b given closed flushing

/-! ### The pending run -/

section

variable (cuts : V.Cuts) (ideal : V.Ideal) (readable : V.Readable) (cluster : 1 < V.config.maxHashCluster)
  (small : V.config.chunkLength + 1 < 2 ^ 31) (enough : V.config.chunkLength.toNat ≤ V.turns)

include cuts ideal readable small enough

theorem OnChunk.flush (on : OnChunk V w) (flushable : Flushable V w) :
    ∃ w', (writeAccelBuffer V).Gives w () w' ∧ OnChunk V w' ∧ w'.accelBuffer = none ∧ bytes V w' = bytes V w ∧
      V.Keeps w.store w'.store := by
  cases run : w.accelBuffer with
  | none => exact ⟨w, writeAccelBufferIn_none run V.stack, on, run, rfl, fun found => found⟩
  | some r =>
    obtain ⟨⟨closed, flushing, buf, wf, all⟩, reconstructed, inside⟩ := on
    have less : V.config.chunkLength < 2 ^ 31 := by omega
    obtain ⟨from_, upto⟩ := inside r run
    obtain ⟨w', flushed, frame, wf', shown, keeps, every⟩ := writeAccelBufferIn_gives cuts ideal less enough run wf
      (contents_shows wf all) from_ upto (flushable r run) V.stack
    have idle : w'.accelBuffer = none := by rw [frame]
    have direct : w'.direct = w.direct := by rw [frame]
    have buf' : w'.buf = none := by rw [frame]; exact buf
    refine ⟨w', flushed, ⟨⟨by rw [frame]; exact closed, by rw [frame]; exact flushing, buf', wf',
      every _ (stored_tracked readable less) all⟩, fun waits => ?_, fun r' waits => ?_⟩, idle, ?_, keeps⟩
    · rw [idle] at waits
      cases waits
    · rw [idle] at waits
      cases waits
    · rw [bytes_extents buf', bytes_extents buf, pending_none idle, overlay_nil, pending_some run, overlay_singleton, direct,
        ← shows_contents shown]

theorem Intact.flush (intact : Intact V w) (prepared : Prepared V w) :
    ∃ w', (writeAccelBuffer V).Gives w () w' ∧ Intact V w' ∧ w'.accelBuffer = none ∧ (∀ b, w'.buf ≠ some (.given b)) ∧
      bytes V w' = bytes V w ∧ V.Keeps w.store w'.store := by
  rcases intact with on | ⟨inArray, bar, clean⟩ | ⟨b, given, -, -⟩
  · obtain ⟨w', flushed, on', idle, same, keeps⟩ := on.flush cuts ideal readable small enough prepared.flushable
    refine ⟨w', flushed, .extents on', idle, fun b given => ?_, same, keeps⟩
    rw [on'.unread.buf] at given
    cases given
  · exact ⟨w, writeAccelBufferIn_none inArray.idle V.stack, .array inArray bar clean, inArray.idle, prepared.own, rfl,
      fun found => found⟩
  · exact absurd given (prepared.own b)

/-! ### A copy -/

variable {p : HashLocPair} {b : Bytes} (extent : p.IsExtent) (fits : p.pos + p.nlen ≤ V.config.chunkLength)

omit cuts ideal

include extent fits

theorem copyReference_spliced (wf : w.ar.WellFormed V.config.chunkLength) (all : AllStored V w.store w.ar)
    (refers : Refers V w.store p b) (room : Room w.ar p.pos (p.pos + p.nlen)) :
    ∃ ar', (copyReference V p).Gives w () { w with reconstructed := true, hlAdded := true, ar := ar' } ∧
      ar'.WellFormed V.config.chunkLength ∧ AllStored V w.store ar' ∧
      contents V w.store w.direct ar' = written (contents V w.store w.direct w.ar) ⟨p.bytesOf b, p.pos⟩ := by
  have less : V.config.chunkLength < 2 ^ 31 := by omega
  obtain ⟨ar', finished, wf', denotes, -⟩ := Fingers.inserted_of_safe less wf extent fits room enough
  have all' : AllStored V w.store ar' := Fingers.every_inserted ((stored_tracked readable less).cut _) less wf extent fits room
    enough all ⟨b, refers⟩ finished
  have length : p.nlen = (p.bytesOf b).length := (length_bytesOf refers.low (le_of_lt extent.2.2.1) refers.inside).symm
  have shown : Shows V w.store w.direct ar' (fun _ => none)
      (written (contents V w.store w.direct w.ar) ⟨p.bytesOf b, p.pos⟩) := by
    refine shows_patch (contents_shows wf all) denotes length ?_
    intro x v covered byte
    refine ⟨b, refers.fetched w.direct, ?_⟩
    rw [refers.offset_eq covered, ← byteAt_bytesOf refers.low covered]
    exact byte
  refine ⟨ar', ?_, wf', all', (shows_contents shown).symm⟩
  rw [copyReference]
  refine Gives.handle ?_
  rw [insertReference]
  refine gives_modify_bind (insertHashLocPair_gives ?_)
  exact finished

omit readable small enough in
theorem copyBytes_written {w₁ : WritableCacheBuffer σ} (ready : (initBuffer V).Gives w () w₁) (inArray : InArray V g w₁)
    (refers : Refers V w.store p b) :
    ∃ a, (copyBytes V p).Gives w () { w₁ with bar := some a, hlAdded := false, dirty := true, reconstructed := false } ∧
      InArray V (written g ⟨p.bytesOf b, p.pos⟩)
        { w₁ with bar := some a, hlAdded := false, dirty := true, reconstructed := false } := by
  have length := length_bytesOf refers.low (le_of_lt extent.2.2.1) refers.inside
  obtain ⟨a, given, inArray'⟩ := @writeBlock_gives _ _ _ _ _ ready inArray ⟨p.bytesOf b, p.pos⟩ extent.1 (by
    dsimp only
    omega)
  refine ⟨a, ?_, inArray'.closed, inArray'.flushing, inArray'.idle, rfl, inArray'.buf, inArray'.bar⟩
  rw [copyBytes]
  refine gives_get ?_
  rw [refers.chunkOf]
  dsimp only
  rw [part_bytesOf (le_of_lt extent.2.2.1) refers]
  exact Gives.bind given (gives_modify _ _)

omit readable small enough extent fits in
theorem copyExtent_gives {buf : Option Wrapped} (open_ : ¬ (w.closed ∨ w.flushing))
    (kept : (if w.dirty then w.buf else none) = buf)
    (given : (if buf.isSome ∨ V.config.maxElementsPerAr ≤ w.ar.size then copyBytes V p else copyReference V p).Gives
      { w with buf := buf, arCopy := w.arCopy <|> some w.ar.tree } () w') : (copyExtent V p).Gives w () w' := by
  rw [copyExtent]
  refine gives_get ?_
  rw [if_neg open_]
  refine gives_modify_bind (gives_get ?_)
  rw [kept]
  exact given

include cluster

theorem OnChunk.copyExtent (on : OnChunk V { w with buf := none }) (idle : w.accelBuffer = none)
    (dropped : (if w.dirty then w.buf else none) = none) (refers : Refers V w.store p b)
    (can : V.config.maxElementsPerAr ≤ w.ar.size ∨ Room w.ar p.pos (p.pos + p.nlen)) :
    ∃ w', (copyExtent V p).Gives w () w' ∧ Intact V w' ∧
      bytes V w' = written (bytes V { w with buf := none }) ⟨p.bytesOf b, p.pos⟩ ∧ w'.store = w.store := by
  have open_ : ¬ (w.closed ∨ w.flushing) := on.open_
  obtain ⟨⟨closed, flushing, -, wf, all⟩, -, -⟩ := on
  have length := length_bytesOf refers.low (le_of_lt extent.2.2.1) refers.inside
  have before : bytes V { w with buf := none } = inChunk V (contents V w.store w.direct w.ar) := by
    rw [bytes_extents rfl, pending_none (by exact idle), overlay_nil]
  rw [before]
  by_cases full : V.config.maxElementsPerAr ≤ w.ar.size
  · have flushed : (writeAccelBuffer V).Gives { w with buf := none, arCopy := w.arCopy <|> some w.ar.tree } ()
        { w with buf := none, arCopy := w.arCopy <|> some w.ar.tree } :=
      @writeAccelBufferIn_none _ V { w with buf := none, arCopy := w.arCopy <|> some w.ar.tree } idle V.stack
    obtain ⟨a₀, ready, inArray⟩ := initBuffer_reads cluster flushed ⟨closed, flushing, rfl, wf, all⟩ idle
    obtain ⟨a, given, inArray'⟩ := copyBytes_written extent fits ready inArray refers
    rw [chunkBytes_eq] at inArray'
    refine ⟨_, copyExtent_gives open_ dropped ?_, inArray'.intact rfl rfl, inArray'.bytes_eq rfl, rfl⟩
    rw [if_pos (Or.inr full)]
    exact given
  · have room := can.resolve_left full
    obtain ⟨ar', given, wf', all', spliced⟩ := @copyReference_spliced _ V
      { w with buf := none, arCopy := w.arCopy <|> some w.ar.tree } readable small enough _ _ extent fits wf all refers room
    have on' : OnChunk V { w with
        buf := none, arCopy := w.arCopy <|> some w.ar.tree, reconstructed := true, hlAdded := true, ar := ar' } := by
      refine ⟨⟨closed, flushing, rfl, wf', all'⟩, fun _ => rfl, fun r run => ?_⟩
      have waits : w.accelBuffer = some r := run
      rw [idle] at waits
      cases waits
    refine ⟨_, copyExtent_gives open_ dropped ?_, .extents on', ?_, rfl⟩
    · rw [if_neg (by rintro (kept | clears); exacts [Bool.false_ne_true kept, full clears])]
      exact given
    · rw [bytes_extents rfl, pending_none (by exact idle), overlay_nil]
      dsimp only at spliced ⊢
      rw [spliced]
      refine inChunk_written extent.1 ?_
      dsimp only
      omega

/-- The bytes of the extent are where it is put, and the others stay. -/
theorem Intact.copyExtent (intact : Intact V w) (idle : w.accelBuffer = none) (own : ∀ b, w.buf ≠ some (.given b))
    (refers : Refers V w.store p b) (can : Spliceable V w p) :
    ∃ w', (copyExtent V p).Gives w () w' ∧ Intact V w' ∧ bytes V w' = written (bytes V w) ⟨p.bytesOf b, p.pos⟩ ∧
      w'.store = w.store := by
  have open_ := intact.open_
  rcases intact with on | ⟨inArray, bar, clean⟩ | ⟨c, given, -, -⟩
  · have here : ({ w with buf := none } : WritableCacheBuffer σ) = w := by rw [← on.unread.buf]
    have splice := can.resolve_left fun kept => by
      rw [on.unread.buf] at kept
      exact Bool.false_ne_true kept.2
    have dropped : (if w.dirty then w.buf else none) = none := by rw [on.unread.buf, ite_self]
    have copied := OnChunk.copyExtent readable cluster small enough extent fits (by rw [here]; exact on) idle dropped refers
      splice
    rwa [here] at copied
  · by_cases dirty : w.dirty = true
    · have kept : InArray V (bytes V w) { w with buf := w.buf, arCopy := w.arCopy <|> some w.ar.tree } :=
        ⟨inArray.closed, inArray.flushing, inArray.idle, inArray.hlAdded, inArray.buf, inArray.bar⟩
      obtain ⟨a, given, inArray'⟩ := copyBytes_written extent fits (initBuffer_idle kept.idle kept.buf) kept refers
      refine ⟨_, copyExtent_gives open_ (if_pos dirty) ?_, inArray'.intact bar rfl, inArray'.bytes_eq bar, rfl⟩
      rw [if_pos (Or.inl inArray.buf)]
      exact given
    · obtain ⟨on, same⟩ := clean (Bool.eq_false_iff.mpr dirty)
      have copied := OnChunk.copyExtent readable cluster small enough extent fits on idle (if_neg dirty) refers
        (can.resolve_left fun kept => dirty kept.1)
      rwa [same] at copied
  · exact absurd given (own c)

end

/-! ### Services for chunks of 16 bytes -/

theorem brief_ideal : brief.Ideal := sample_ideal.configured _ _

theorem brief_readable : brief.Readable := by
  refine ⟨fun {s h c s' hl} wrote => @sample_readable.located s h c s' hl wrote, fun {b f} member blank => ?_⟩
  obtain ⟨-, rfl⟩ := mem_sample_chunks member
  have zeros : brief.bk = [241, 211, 255, 132, 67, 41, 119, 50, 134, 45, 242, 29, 196, 229, 114, 98] := by decide
  have hash : sampleHash b = brief.bk := blank
  rw [zeros] at hash
  by_contra other
  unfold sampleHash at hash
  rw [if_neg (show b ≠ List.replicate 4 0 from other)] at hash
  split_ifs at hash <;> exact absurd hash (by decide)

end EncryptedDedup.SDFS.WritableCacheBuffer
