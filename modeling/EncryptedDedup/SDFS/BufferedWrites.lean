import EncryptedDedup.SDFS.ReadPaths

/-!
# Buffered writes

A buffer that is not reconstructed keeps its bytes in the array `bar`, and `buf` wraps that array until a write of the
whole chunk replaces `buf` alone.
-/

namespace EncryptedDedup.SDFS.WritableCacheBuffer

open Program

variable {σ : Type} {V : Services σ} {c : Int → Option UInt8} {w : WritableCacheBuffer σ}

def whole (V : Services σ) (wr : Write) : Bool := wr.pos = 0 ∧ wr.bytes.length = V.config.chunkLength

theorem whole_iff {wr : Write} : whole V wr = true ↔ wr.pos = 0 ∧ wr.bytes.length = V.config.chunkLength :=
  decide_eq_true_iff

def Op.Access (V : Services σ) : Op → Prop
  | .write wr => 0 ≤ wr.pos ∧ wr.pos + wr.bytes.length ≤ V.config.chunkLength
  | .copyExtent _ _ => False
  | .getReadChunk startPos len => InChunk V startPos len

def Op.whole (V : Services σ) : Op → Bool
  | .write wr => WritableCacheBuffer.whole V wr
  | _ => false

def partials (V : Services σ) (ws : List Write) : List Write := ws.filter fun wr => !whole V wr

/-- The bytes of the last write of the whole chunk; without one, `last`. -/
def lastWhole (V : Services σ) (last : Option Bytes) (ws : List Write) : Option Bytes :=
  ws.foldl (fun last wr => if whole V wr then some wr.bytes else last) last

/-- The array has the bytes `c`, and `buf` wraps it or the bytes of the last write of the whole chunk. -/
structure Aliased (V : Services σ) (c : Int → Option UInt8) (last : Option Bytes) (w : WritableCacheBuffer σ) : Prop where
  inArray : InArray V c w
  reconstructed : w.reconstructed = false
  buf : w.buf = some (match last with | none => .bar | some b => .given b)
  length : ∀ b, last = some b → b.length = V.config.chunkLength

/-- Every view of an open buffer shows the bytes `c`: reads, the buffer that a flush queues, and the two
names of the array. -/
structure Agrees (V : Services σ) (c : Int → Option UInt8) (w : WritableCacheBuffer σ) : Prop where
  reads : ∀ startPos len, InChunk V startPos len →
    ∃ b w', (getReadChunk V startPos len).Gives w b w' ∧ Reads c startPos len b
  flushed : w.dirty = true → ∃ b w', (getFlushedBuffer V).Gives (flush w) b w' ∧ Reads c 0 V.config.chunkLength b
  alias_ : ∀ b, w.array = some b → w.bar = some b

/-- The calls end, and every view of the buffer shows the writes over `c`. -/
def Right (V : Services σ) (c : Int → Option UInt8) (w : WritableCacheBuffer σ) (ops : List Op) : Prop :=
  ∃ w', (runAll V ops).Gives w () w' ∧ Agrees V (overlay c (ops.flatMap Op.writes)) w'

/-- The last write of the whole chunk, if there is one, has the bytes that the partial writes alone leave, and that
all writes leave. -/
def WholeSeen (V : Services σ) (c : Int → Option UInt8) (ws : List Write) : Prop :=
  ∀ b, lastWhole V none ws = some b → ∀ x, 0 ≤ x → x < V.config.chunkLength →
    overlay c (partials V ws) x = byteAt b x ∧ overlay c ws x = byteAt b x

/-! ### Steps -/

theorem write_whole (open_ : ¬ (w.closed ∨ w.flushing)) {wr : Write} (all : whole V wr = true) :
    (write V wr.bytes wr.pos).Gives w ()
      { w with dirty := true, buf := some (.given wr.bytes), bytesWritten := int (w.bytesWritten + wr.bytes.length) } := by
  have through : (writeBytes V wr.bytes wr.pos).Gives { w with dirty := true } ()
      { w with dirty := true, buf := some (.given wr.bytes) } := by
    rw [writeBytes]
    refine gives_get ?_
    rw [if_pos (whole_iff.mp all)]
    exact gives_modify _ _
  rw [write]
  refine gives_get ?_
  rw [if_neg open_]
  exact gives_modify_bind (Gives.bind through (gives_modify _ _))

theorem write_part {w₁ : WritableCacheBuffer σ} {last : Option Bytes} (open_ : ¬ (w.closed ∨ w.flushing))
    (reconstructed : w.reconstructed = false) (ready : (initBuffer V).Gives { w with dirty := true } () w₁)
    (aliased : Aliased V c last w₁) {wr : Write} (access : Op.Access V (.write wr)) (part : whole V wr = false) :
    ∃ w', (write V wr.bytes wr.pos).Gives w () w' ∧ Aliased V (written c wr) last w' := by
  have notWhole : ¬ (wr.pos = 0 ∧ wr.bytes.length = V.config.chunkLength) := by
    rw [← whole_iff, part]
    exact Bool.false_ne_true
  obtain ⟨closed, flushing⟩ := not_or.mp open_
  obtain ⟨a, total, given, inArray⟩ := write_array (Bool.eq_false_iff.mpr closed) (Bool.eq_false_iff.mpr flushing)
    (fun way => by rw [reconstructed] at way; exact Bool.false_ne_true way.2.1) ready aliased.inArray
    ⟨access.1, access.2, notWhole⟩
  exact ⟨_, given, inArray, aliased.reconstructed, aliased.buf, aliased.length⟩

theorem aliased_step {last : Option Bytes} (aliased : Aliased V c last w) {op : Op} (access : op.Access V) :
    ∃ w', (op.run V).Gives w () w' ∧ Aliased V (overlay c (partials V op.writes)) (lastWhole V last op.writes) w' := by
  obtain ⟨⟨closed, flushing, idle, hlAdded, buf, bar⟩, reconstructed, wraps, length⟩ := aliased
  have open_ : ¬ (w.closed ∨ w.flushing) := by simp [closed, flushing]
  cases op with
  | write wr =>
    cases all : whole V wr with
    | true =>
      have parts : partials V [wr] = [] := List.filter_cons_of_neg (by rw [all]; exact Bool.false_ne_true)
      have last' : lastWhole V last [wr] = some wr.bytes := if_pos all
      rw [Op.writes, parts, last', overlay_nil]
      refine ⟨_, write_whole open_ all, ⟨closed, flushing, idle, hlAdded, rfl, bar⟩, reconstructed, rfl, fun b same => ?_⟩
      rw [← Option.some.inj same]
      exact (whole_iff.mp all).2
    | false =>
      have parts : partials V [wr] = [wr] := List.filter_cons_of_pos (by rw [all]; rfl)
      have last' : lastWhole V last [wr] = last := if_neg (by rw [all]; exact Bool.false_ne_true)
      have dirtied : Aliased V c last { w with dirty := true } :=
        ⟨⟨closed, flushing, idle, hlAdded, buf, bar⟩, reconstructed, wraps, length⟩
      rw [Op.writes, parts, last', overlay_singleton]
      exact write_part open_ reconstructed (initBuffer_idle dirtied.inArray.idle dirtied.inArray.buf) dirtied access all
  | copyExtent p bytes => exact access.elim
  | getReadChunk startPos len =>
    have inArray : InArray V c w := ⟨closed, flushing, idle, hlAdded, buf, bar⟩
    obtain ⟨b, given, -⟩ := getReadChunk_array inArray access
    exact ⟨w, Gives.bind given (gives_pure () w), inArray, reconstructed, wraps, length⟩

theorem partials_append (ws vs : List Write) : partials V (ws ++ vs) = partials V ws ++ partials V vs :=
  List.filter_append ..

theorem lastWhole_append (last : Option Bytes) (ws vs : List Write) :
    lastWhole V last (ws ++ vs) = lastWhole V (lastWhole V last ws) vs :=
  List.foldl_append

theorem aliased_run {last : Option Bytes} {ops : List Op} (aliased : Aliased V c last w)
    (accesses : ∀ op ∈ ops, op.Access V) :
    ∃ w', (runAll V ops).Gives w () w' ∧ Aliased V (overlay c (partials V (ops.flatMap Op.writes)))
      (lastWhole V last (ops.flatMap Op.writes)) w' := by
  induction ops generalizing w c last with
  | nil => exact ⟨w, gives_pure () w, aliased⟩
  | cons op ops ih =>
    obtain ⟨first, later⟩ := List.forall_mem_cons.mp accesses
    obtain ⟨w₁, given, aliased₁⟩ := aliased_step aliased first
    obtain ⟨w', rest, aliased'⟩ := ih aliased₁ later
    refine ⟨w', Gives.bind given rest, ?_⟩
    rw [List.flatMap_cons, partials_append, overlay_append, lastWhole_append]
    exact aliased'

/-! ### What the views show -/

theorem Aliased.array {last : Option Bytes} (aliased : Aliased V c last w) :
    w.array = match last with | none => w.bar | some b => some b := by
  rw [WritableCacheBuffer.array, aliased.buf]
  cases last with
  | none => rfl
  | some b => rfl

theorem getFlushedBuffer_gives {b : Bytes} (closed : w.closed = false) (flushing : w.flushing = false)
    (dirty : w.dirty = true) (buf : w.buf.isSome) (array : w.array = some b) :
    (getFlushedBuffer V).Gives (flush w) b (flush w) := by
  have queued : flush w = { w with flushing := true } := by
    rw [flush, if_neg (by simp [closed, flushing]), if_pos (Or.inl dirty)]
  have same : WritableCacheBuffer.array { w with flushing := true } = some b := array
  rw [queued, getFlushedBuffer]
  refine gives_get ?_
  rw [if_neg (by simp [closed])]
  dsimp only
  rw [if_neg (by rw [Option.isNone_eq_false_iff.mpr buf]; exact Bool.false_ne_true)]
  refine Gives.bind (gives_pure () _) (gives_get ?_)
  rw [same]
  exact gives_pure b _

theorem reads_whole {b : Bytes} (length : b.length = V.config.chunkLength) {c' : Int → Option UInt8}
    (same : ∀ x, 0 ≤ x → x < V.config.chunkLength → byteAt b x = c' x) : Reads c' 0 V.config.chunkLength b := by
  refine ⟨length, fun i from_ upto => ?_⟩
  rw [zero_add]
  exact same i from_ upto

theorem agrees_iff (positive : 0 < V.config.chunkLength) {last : Option Bytes} (aliased : Aliased V c last w)
    {c' : Int → Option UInt8} :
    Agrees V c' w ↔ (∀ x, 0 ≤ x → x < V.config.chunkLength → c x = c' x) ∧
      ∀ b, last = some b → ∀ x, 0 ≤ x → x < V.config.chunkLength → c x = byteAt b x := by
  have array := aliased.array
  obtain ⟨a, bar, length, bytes⟩ := aliased.inArray.bar
  constructor
  · rintro ⟨reads, -, alias_⟩
    refine ⟨fun x low high => ?_, ?_⟩
    · have range : InChunk V x 1 := ⟨low, one_pos, by omega⟩
      obtain ⟨b, w', given, shown⟩ := reads x 1 range
      obtain ⟨b', given', shown'⟩ := getReadChunk_array aliased.inArray range
      obtain ⟨rfl, -⟩ := given.unique given'
      have first := shown.2 0 (le_refl _) one_pos
      have first' := shown'.2 0 (le_refl _) one_pos
      rw [add_zero] at first first'
      rw [← first, first']
    · rintro b rfl x - -
      have same := bar.symm.trans (alias_ b array)
      rw [← bytes, Option.some.inj same]
  · rintro ⟨same, kept⟩
    refine ⟨fun startPos len range => ?_, fun dirty => ?_, fun b named => ?_⟩
    · obtain ⟨b, given, shown⟩ := getReadChunk_array aliased.inArray range
      obtain ⟨low, -, upto⟩ := range
      exact ⟨b, w, given, shown.1, fun i from_ less => (shown.2 i from_ less).trans (same _ (by omega) (by omega))⟩
    · obtain ⟨closed, flushing, -, -, buf, -⟩ := aliased.inArray
      cases last with
      | none =>
        refine ⟨a, _, getFlushedBuffer_gives closed flushing dirty buf (array.trans bar), reads_whole (by omega) ?_⟩
        rw [bytes]
        exact same
      | some b =>
        refine ⟨b, _, getFlushedBuffer_gives closed flushing dirty buf array, reads_whole (aliased.length b rfl) ?_⟩
        exact fun x low high => (kept b rfl x low high).symm.trans (same x low high)
    · cases last with
      | none => exact array.symm.trans named
      | some b' =>
        rw [array] at named
        cases named
        have wide := aliased.length b rfl
        -- Both arrays have the length of a chunk.
        have equal : a = b := by
          refine byteAt_ext fun x => ?_
          by_cases inside : 0 ≤ x ∧ x < V.config.chunkLength
          · rw [bytes]
            exact kept b rfl x inside.1 inside.2
          · rw [byteAt_eq_none (by omega), byteAt_eq_none (by omega)]
        rw [bar, equal]

theorem partials_of_none {last : Option Bytes} {ws : List Write} (none_ : lastWhole V last ws = none) :
    last = none ∧ partials V ws = ws := by
  induction ws generalizing last with
  | nil => exact ⟨none_, rfl⟩
  | cons wr ws ih =>
    obtain ⟨first, rest⟩ := ih none_
    dsimp only at first
    cases all : whole V wr with
    | true =>
      rw [if_pos all] at first
      cases first
    | false =>
      rw [if_neg (by rw [all]; exact Bool.false_ne_true)] at first
      refine ⟨first, ?_⟩
      have part : partials V (wr :: ws) = wr :: partials V ws := List.filter_cons_of_pos (by rw [all]; rfl)
      rw [part, rest]

theorem right_iff (positive : 0 < V.config.chunkLength) (aliased : Aliased V c none w) {ops : List Op}
    (accesses : ∀ op ∈ ops, op.Access V) : Right V c w ops ↔ WholeSeen V c (ops.flatMap Op.writes) := by
  obtain ⟨w', given, aliased'⟩ := aliased_run aliased accesses
  have agrees := @agrees_iff _ _ _ _ positive _ aliased' (overlay c (ops.flatMap Op.writes))
  have state : Right V c w ops ↔ Agrees V (overlay c (ops.flatMap Op.writes)) w' := by
    refine ⟨?_, fun shown => ⟨w', given, shown⟩⟩
    rintro ⟨w'', given', shown⟩
    obtain ⟨-, rfl⟩ := given.unique given'
    exact shown
  rw [state, agrees]
  constructor
  · rintro ⟨same, kept⟩ b last x low high
    have alone := kept b last x low high
    exact ⟨alone, (same x low high).symm.trans alone⟩
  · intro seen
    refine ⟨fun x low high => ?_, fun b last x low high => (seen b last x low high).1⟩
    cases last : lastWhole V none (ops.flatMap Op.writes) with
    | none => rw [(partials_of_none last).2]
    | some b =>
      obtain ⟨alone, every⟩ := seen b last x low high
      rw [alone, every]

/-! ### Buffers without an array -/

/-- A fresh buffer of a stored chunk, with the bytes `c`. -/
structure Bare (V : Services σ) (c : Int → Option UInt8) (w : WritableCacheBuffer σ) : Prop where
  unread : Unread V w
  idle : w.accelBuffer = none
  reconstructed : w.reconstructed = false
  hlAdded : w.hlAdded = false
  bar : w.bar = none
  content : chunkBytes V w.store w.direct w.ar = c

/-- Only `buf` has bytes. -/
structure Lost (w : WritableCacheBuffer σ) : Prop where
  closed : w.closed = false
  flushing : w.flushing = false
  idle : w.accelBuffer = none
  reconstructed : w.reconstructed = false
  hlAdded : w.hlAdded = false
  buf : w.buf.isSome
  bar : w.bar = none

theorem Bare.initBuffer (cluster : 1 < V.config.maxHashCluster) (bare : Bare V c w) :
    ∃ w', (initBuffer V).Gives w () w' ∧ Aliased V c none w' := by
  obtain ⟨a, ready, inArray⟩ := initBuffer_reads cluster (writeAccelBufferIn_none bare.idle V.stack) bare.unread bare.idle
  rw [bare.content] at inArray
  exact ⟨_, ready, inArray, bare.reconstructed, rfl, fun b same => by cases same⟩

theorem Bare.getReadChunk (cluster : 1 < V.config.maxHashCluster) (bare : Bare V c w) {startPos len : Int}
    (range : InChunk V startPos len) :
    ∃ b w', (getReadChunk V startPos len).Gives w b w' ∧ Reads c startPos len b ∧ Aliased V c none w' := by
  obtain ⟨w', ready, aliased⟩ := bare.initBuffer cluster
  obtain ⟨b, given, reads⟩ := readArray_gives ready aliased.inArray range
  refine ⟨b, w', ?_, reads, aliased⟩
  have run : runHas w startPos len = false := by rw [runHas, bare.idle]; rfl
  rw [WritableCacheBuffer.getReadChunk]
  refine gives_get ?_
  rw [if_neg (by simp [bare.unread.closed, bare.unread.flushing]), if_neg (by simp [bare.hlAdded]), readChunk]
  refine gives_get ?_
  rw [if_neg (by simp [bare.unread.closed, bare.unread.flushing]), if_neg (by simp [run])]
  exact given

theorem bare_step (cluster : 1 < V.config.maxHashCluster) (bare : Bare V c w) {op : Op} (access : op.Access V)
    (part : op.whole V = false) :
    ∃ w', (op.run V).Gives w () w' ∧ Aliased V (overlay c op.writes) none w' := by
  cases op with
  | write wr =>
    have dirtied : Bare V c { w with dirty := true } :=
      ⟨⟨bare.unread.closed, bare.unread.flushing, bare.unread.buf, bare.unread.wf, bare.unread.all⟩, bare.idle,
        bare.reconstructed, bare.hlAdded, bare.bar, bare.content⟩
    obtain ⟨w₁, ready, aliased⟩ := dirtied.initBuffer cluster
    rw [Op.writes, overlay_singleton]
    exact write_part (by simp [bare.unread.closed, bare.unread.flushing]) bare.reconstructed ready aliased access part
  | copyExtent p bytes => exact access.elim
  | getReadChunk startPos len =>
    obtain ⟨b, w', given, -, aliased⟩ := bare.getReadChunk cluster access
    exact ⟨w', Gives.bind given (gives_pure () w'), aliased⟩

theorem Lost.getReadChunk (lost : Lost w) {startPos len : Int} (range : InChunk V startPos len) :
    (getReadChunk V startPos len).Throws w .nullPointer w := by
  have run : runHas w startPos len = false := by rw [runHas, lost.idle]; rfl
  rw [WritableCacheBuffer.getReadChunk]
  refine throws_get ?_
  rw [if_neg (by simp [lost.closed, lost.flushing]), if_neg (by simp [lost.hlAdded]), readChunk]
  refine throws_get ?_
  rw [if_neg (by simp [lost.closed, lost.flushing]), if_neg (by simp [run]), readArray]
  refine Gives.bind_throws (initBuffer_idle lost.idle lost.buf) (throws_get ?_)
  rw [if_neg (not_lt.mpr (le_of_lt range.2.1)), lost.bar]
  rfl

/-- A call on a buffer without the array writes the whole chunk or throws. -/
theorem lost_step (lost : Lost w) {op : Op} (access : op.Access V) {w' : WritableCacheBuffer σ}
    (given : (op.run V).Gives w () w') : Lost w' := by
  have open_ : ¬ (w.closed ∨ w.flushing) := by simp [lost.closed, lost.flushing]
  cases op with
  | write wr =>
    cases all : whole V wr with
    | true =>
      obtain ⟨-, rfl⟩ := given.unique (write_whole open_ all)
      exact ⟨lost.closed, lost.flushing, lost.idle, lost.reconstructed, lost.hlAdded, rfl, lost.bar⟩
    | false =>
      have thrown : (write V wr.bytes wr.pos).Throws w .nullPointer { w with dirty := true } := by
        have ready : (initBuffer V).Gives { w with dirty := true } () { w with dirty := true } :=
          @initBuffer_idle _ V { w with dirty := true } lost.idle lost.buf
        have through : (writeBytes V wr.bytes wr.pos).Throws { w with dirty := true } .nullPointer
            { w with dirty := true } := by
          rw [writeBytes]
          refine throws_get ?_
          rw [if_neg (by rw [← whole_iff, all]; exact Bool.false_ne_true),
            if_neg (by simp [lost.reconstructed]), writeBlock]
          refine Gives.bind_throws ready (throws_get ?_)
          dsimp only
          rw [lost.bar]
          rfl
        rw [write]
        refine throws_get ?_
        rw [if_neg open_]
        exact throws_modify_bind (Throws.bind through)
      exact absurd given thrown.not_gives
  | copyExtent p bytes => exact access.elim
  | getReadChunk startPos len => exact absurd given (Throws.bind (lost.getReadChunk access)).not_gives

theorem lost_run (lost : Lost w) {ops : List Op} (accesses : ∀ op ∈ ops, op.Access V) {w' : WritableCacheBuffer σ}
    (given : (runAll V ops).Gives w () w') : Lost w' := by
  induction ops generalizing w with
  | nil =>
    obtain ⟨-, rfl⟩ := given.unique (gives_pure () w)
    exact lost
  | cons op ops ih =>
    obtain ⟨first, later⟩ := List.forall_mem_cons.mp accesses
    obtain ⟨⟨⟩, w₁, given₁, rest⟩ := Gives.of_bind given
    exact ih (lost_step lost first given₁) later rest

theorem right_bare_iff (cluster : 1 < V.config.maxHashCluster) (positive : 0 < V.config.chunkLength) (bare : Bare V c w)
    (clean : w.dirty = false) {ops : List Op} (accesses : ∀ op ∈ ops, op.Access V) :
    Right V c w ops ↔ (∀ op ∈ ops.head?, op.whole V = false) ∧ WholeSeen V c (ops.flatMap Op.writes) := by
  cases ops with
  | nil =>
    refine ⟨fun _ => ⟨fun op first => (by cases first), fun b last => (by cases last)⟩, fun _ => ?_⟩
    refine ⟨w, gives_pure () w, fun startPos len range => ?_, fun dirty => ?_, fun b named => ?_⟩
    · obtain ⟨b, w', given, reads, -⟩ := bare.getReadChunk cluster range
      exact ⟨b, w', given, reads⟩
    · rw [clean] at dirty
      cases dirty
    · rw [array, bare.unread.buf] at named
      cases named
  | cons op ops =>
    obtain ⟨first, later⟩ := List.forall_mem_cons.mp accesses
    cases all : op.whole V with
    | false =>
      obtain ⟨w₁, given, aliased⟩ := bare_step cluster bare first all
      have parts : partials V op.writes = op.writes ∧ lastWhole V none op.writes = none := by
        cases op with
        | write wr => exact ⟨List.filter_cons_of_pos (by rw [show whole V wr = false from all]; rfl),
            if_neg (by rw [show whole V wr = false from all]; exact Bool.false_ne_true)⟩
        | copyExtent p bytes => exact first.elim
        | getReadChunk startPos len => exact ⟨rfl, rfl⟩
      have tail : Right V c w (op :: ops) ↔ Right V (overlay c op.writes) w₁ ops := by
        rw [Right, Right, List.flatMap_cons, overlay_append]
        constructor
        · rintro ⟨w', run, shown⟩
          obtain ⟨⟨⟩, w₂, given₂, rest⟩ := Gives.of_bind run
          obtain ⟨-, rfl⟩ := given₂.unique given
          exact ⟨w', rest, shown⟩
        · rintro ⟨w', rest, shown⟩
          exact ⟨w', Gives.bind given rest, shown⟩
      have seen : WholeSeen V c ((op :: ops).flatMap Op.writes) ↔
          WholeSeen V (overlay c op.writes) (ops.flatMap Op.writes) := by
        rw [WholeSeen, WholeSeen, List.flatMap_cons, partials_append, lastWhole_append, overlay_append, overlay_append,
          parts.1, parts.2]
      rw [tail, right_iff positive aliased later, seen]
      refine ⟨fun shown => ⟨fun op' same => ?_, shown⟩, fun both => both.2⟩
      rw [← Option.some.inj same]
      exact all
    | true =>
      refine ⟨fun right => ?_, fun both => ?_⟩
      · exfalso
        obtain ⟨w', run, shown⟩ := right
        obtain ⟨⟨⟩, w₁, given, rest⟩ := Gives.of_bind run
        have lost : Lost w₁ := by
          cases op with
          | write wr =>
            obtain ⟨-, rfl⟩ := given.unique
              (write_whole (by simp [bare.unread.closed, bare.unread.flushing]) (show whole V wr = true from all))
            exact ⟨bare.unread.closed, bare.unread.flushing, bare.idle, bare.reconstructed, bare.hlAdded, rfl, bare.bar⟩
          | copyExtent p bytes => exact first.elim
          | getReadChunk startPos len => cases all
        have range : InChunk V 0 1 := ⟨le_refl _, one_pos, by omega⟩
        obtain ⟨b, w'', read, -⟩ := shown.reads 0 1 range
        exact ((lost_run lost later rest).getReadChunk range).not_gives read
      · have first' := both.1 op rfl
        rw [all] at first'
        cases first'

theorem aliased_ofFile (V : Services σ) (store : σ) (ar : Fingers) (direct : Bool) :
    Aliased V (byteAt (List.replicate V.config.chunkLength.toNat 0)) none (open_ (ofFile V store ar false direct)) :=
  ⟨⟨rfl, rfl, rfl, rfl, rfl, _, rfl, List.length_replicate .., rfl⟩, rfl, rfl, fun b same => (by cases same)⟩

/-- For both constructors: exactly when the views of the buffer agree after a mixture of writes and reads. -/
theorem right_ofFile_iff_and_ofDedupChunk_iff (cluster : 1 < V.config.maxHashCluster)
    (positive : 0 < V.config.chunkLength) {store : σ} {ar : Fingers} {direct : Bool} {ops : List Op}
    (accesses : ∀ op ∈ ops, op.Access V) :
    (Right V (byteAt (List.replicate V.config.chunkLength.toNat 0)) (open_ (ofFile V store ar false direct)) ops ↔
      WholeSeen V (byteAt (List.replicate V.config.chunkLength.toNat 0)) (ops.flatMap Op.writes)) ∧
    ∀ newChunk prevDoop, ar.WellFormed V.config.chunkLength → AllStored V store ar →
      (Right V (chunkBytes V store direct ar) (open_ (ofDedupChunk V store ar newChunk prevDoop false direct)) ops ↔
        (∀ op ∈ ops.head?, op.whole V = false) ∧ WholeSeen V (chunkBytes V store direct ar) (ops.flatMap Op.writes)) := by
  constructor
  · exact right_iff positive (aliased_ofFile V store ar direct) accesses
  · intro newChunk prevDoop wf all
    exact right_bare_iff cluster positive ⟨⟨rfl, rfl, rfl, wf, all⟩, rfl, rfl, rfl, rfl, rfl⟩ rfl accesses

theorem right_threeLetters :
    (let ops : List Op := [.write ⟨[97, 98, 99], 100⟩, .getReadChunk 101 1]
    Right sample (byteAt (List.replicate 16384 0)) (open_ (ofFile sample () Fingers.empty false true)) ops ∧
      Right sample (chunkBytes sample () true wholeExtent) (open_ (ofDedupChunk sample () wholeExtent false 0 false true))
        ops) := by
  have accesses : ∀ op ∈ [Op.write ⟨[97, 98, 99], 100⟩, .getReadChunk 101 1], op.Access sample := by
    intro op member
    rcases List.mem_cons.mp member with rfl | member
    · exact ⟨by decide, by decide⟩
    · rw [List.mem_singleton.mp member]
      exact ⟨by decide, by decide, by decide⟩
  have unseen : lastWhole sample none [⟨[97, 98, 99], 100⟩] = none := by decide
  have both := @right_ofFile_iff_and_ofDedupChunk_iff _ sample (by decide) (by decide) () wholeExtent true _ accesses
  have first := @right_ofFile_iff_and_ofDedupChunk_iff _ sample (by decide) (by decide) () Fingers.empty true _ accesses
  refine ⟨first.1.mpr fun b last => ?_, (both.2 false 0 wholeExtent_wellFormed wholeExtent_stored).mpr ⟨?_, fun b last => ?_⟩⟩
  · cases unseen.symm.trans last
  · intro op same
    rw [← Option.some.inj same]
    decide
  · cases unseen.symm.trans last

/-- A read after a write of the whole chunk still shows the old array. -/
theorem not_right_whole :
    (∀ op ∈ [Op.write ⟨letters, 0⟩], op.Access sample) ∧
      ¬ Right sample (byteAt (List.replicate 16384 0)) (open_ (ofFile sample () Fingers.empty false true))
        [.write ⟨letters, 0⟩] := by
  have length : (letters.length : Int) = 16384 := by rw [letters, List.length_replicate, Nat.cast_ofNat]
  have access : ∀ op ∈ [Op.write ⟨letters, 0⟩], op.Access sample := by
    intro op member
    rw [List.mem_singleton.mp member]
    refine ⟨le_refl _, ?_⟩
    dsimp only
    rw [length]
    decide
  have all : whole sample ⟨letters, 0⟩ = true := whole_iff.mpr ⟨rfl, length⟩
  refine ⟨access, fun right => ?_⟩
  have aliased : Aliased sample (byteAt (List.replicate 16384 0)) none
      (open_ (ofFile sample () Fingers.empty false true)) := aliased_ofFile sample () Fingers.empty true
  have seen := (right_iff (by decide) aliased access).mp right
  rw [List.flatMap_cons, Op.writes, List.flatMap_nil, List.append_nil] at seen
  have last : lastWhole sample none [⟨letters, 0⟩] = some letters := by
    rw [lastWhole, List.foldl_cons, List.foldl_nil, if_pos all]
  have alone := (seen letters last 0 (le_refl _) (by decide)).1
  have parts : partials sample [⟨letters, 0⟩] = [] := List.filter_cons_of_neg (by rw [all]; exact Bool.false_ne_true)
  rw [parts, overlay_nil, letters, byteAt_replicate, byteAt_replicate, if_pos (by omega), if_pos (by omega)] at alone
  cases alone

end EncryptedDedup.SDFS.WritableCacheBuffer
