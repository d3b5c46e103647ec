import EncryptedDedup.SDFS.ChunkContents

/-!
# The write accelerator

Partial writes of a reconstructed buffer gather in a run, and the run is cut into chunks when a write does
not continue it.
-/

namespace EncryptedDedup.SDFS.WritableCacheBuffer

open Program

variable {σ : Type} {V : Services σ} {f : Int → Option Piece} {g : Int → Option UInt8} {w : WritableCacheBuffer σ}

/-- The writes that wait in the accelerator, as one. -/
def pending (w : WritableCacheBuffer σ) : List Write := (w.accelBuffer.map fun r => ⟨r, w.accelBuffPos⟩).toList

def Partial (V : Services σ) (wr : Write) : Prop :=
  0 ≤ wr.pos ∧ wr.pos + wr.bytes.length ≤ V.config.chunkLength ∧ ¬ (wr.pos = 0 ∧ wr.bytes.length = V.config.chunkLength)

def RunInside (V : Services σ) (w : WritableCacheBuffer σ) : Prop :=
  ∀ r, w.accelBuffer = some r → 0 ≤ w.accelBuffPos ∧ w.accelBuffPos + r.length ≤ V.config.chunkLength

/-- A buffer that gathers writes. Its extents show `g`, and have the property `P`. -/
structure Gathering (V : Services σ) (P : σ → HashLocPair → Prop) (f : Int → Option Piece) (g : Int → Option UInt8)
    (w : WritableCacheBuffer σ) : Prop where
  closed : w.closed = false
  flushing : w.flushing = false
  reconstructed : w.reconstructed = true
  buf : w.buf = none
  wf : w.ar.WellFormed V.config.chunkLength
  shown : Shows V w.store w.direct w.ar f g
  every : ∀ k h, w.ar.entry k = some h → P w.store h
  inside : RunInside V w

/-- What a write over the extents and the run of `w` leaves, where the extents showed `g`. The extents are
as they were, or the run is written to them. -/
structure Gathered (V : Services σ) (P : σ → HashLocPair → Prop) (f : Int → Option Piece) (g : Int → Option UInt8)
    (w : WritableCacheBuffer σ) (wr : Write) (g' : Int → Option UInt8) (w' : WritableCacheBuffer σ) : Prop where
  gathering : Gathering V P f g' w'
  overlaid : overlay g' (pending w') = written (overlay g (pending w)) wr
  extents : g' = g ∨ g' = overlay g (pending w)
  -- The end is counted from the start of the run.
  ended : ∃ r, w'.accelBuffer = some r ∧ wr.bytes.length ≤ r.length ∧
    w'.accelBuffEp = int (w'.accelBuffPos + wr.bytes.length)

/-- Where a write seems to continue the run it does, and another write can flush the run. -/
def Continues (V : Services σ) (w : WritableCacheBuffer σ) (pos : Int) : Prop :=
  ∀ r, w.accelBuffer = some r →
    if w.accelBuffEp = pos then w.accelBuffPos + r.length = pos else CanFlush V w r

theorem pending_none (idle : w.accelBuffer = none) : pending w = [] := by
  rw [pending, idle]
  rfl

theorem pending_some {r : Bytes} (run : w.accelBuffer = some r) :
    pending w = [⟨r, w.accelBuffPos⟩] := by
  rw [pending, run]
  rfl

theorem overlay_singleton (g : Int → Option UInt8) (wr : Write) : overlay g [wr] = written g wr := by
  rw [overlay_cons, overlay_nil]

variable {P : σ → HashLocPair → Prop}

theorem Gathering.startRun (gathering : Gathering V P f g w) {b : Bytes} {pos : Int} (low : 0 ≤ pos)
    (fits : pos + b.length ≤ V.config.chunkLength) :
    ∃ w', (startRun b pos).Gives w () w' ∧ Gathering V P f g w' ∧ pending w' = [⟨b, pos⟩] ∧
      w'.accelBuffer = some b ∧ w'.accelBuffEp = int (w'.accelBuffPos + b.length) := by
  obtain ⟨closed, flushing, reconstructed, buf, wf, shown, every, -⟩ := gathering
  refine ⟨_, gives_modify _ w, ⟨closed, flushing, reconstructed, buf, wf, shown, every, ?_⟩, rfl, rfl, rfl⟩
  intro r same
  rw [← Option.some.inj same]
  exact ⟨low, fits⟩

theorem Gathering.flush (cuts : V.Cuts) (ideal : V.Ideal) (small : V.config.chunkLength < 2 ^ 31)
    (enough : V.config.chunkLength.toNat ≤ V.turns) (tracked : Tracked V P) (gathering : Gathering V P f g w) {r : Bytes}
    (run : w.accelBuffer = some r) (can : CanFlush V w r) :
    ∃ w', (writeAccelBuffer V).Gives w () w' ∧ Gathering V P f (overlay g (pending w)) w' ∧ w'.accelBuffer = none := by
  obtain ⟨closed, flushing, reconstructed, buf, wf, shown, every, inside⟩ := gathering
  obtain ⟨from_, upto⟩ := inside r run
  obtain ⟨w', flushed, frame, wf', shown', -, every'⟩ :=
    writeAccelBufferIn_gives cuts ideal small enough run wf shown from_ upto can V.stack
  have direct : w'.direct = w.direct := by rw [frame]
  have idle : w'.accelBuffer = none := by rw [frame]
  rw [← direct] at shown'
  refine ⟨w', flushed, ⟨by rw [frame]; exact closed, by rw [frame]; exact flushing, by rw [frame]; exact reconstructed,
    by rw [frame]; exact buf, wf', ?_, every' P tracked every, fun r' same => ?_⟩, idle⟩
  · rwa [pending_some run, overlay_singleton]
  · rw [idle] at same
    cases same

theorem wm_gathering (cuts : V.Cuts) (ideal : V.Ideal) (small : V.config.chunkLength < 2 ^ 31)
    (enough : V.config.chunkLength.toNat ≤ V.turns) (tracked : Tracked V P) (gathering : Gathering V P f g w) {wr : Write}
    (low : 0 ≤ wr.pos) (fits : wr.pos + wr.bytes.length ≤ V.config.chunkLength) (continues : Continues V w wr.pos) :
    ∃ g' w', (wm V wr.bytes wr.pos).Gives w () w' ∧ Gathered V P f g w wr g' w' := by
  have marked : { w with reconstructed := true } = w := by rw [← gathering.reconstructed]
  have start (run : Method σ Unit) : (do modify fun w => { w with reconstructed := true }; run : Method σ Unit) w = run w := by
    change run { w with reconstructed := true } = _
    rw [marked]
  cases run : w.accelBuffer with
  | none =>
    obtain ⟨w', given, gathering', pending', run', end_⟩ := gathering.startRun low fits
    refine ⟨g, w', ?_, ⟨gathering', ?_, Or.inl rfl, _, run', le_refl _, end_⟩⟩
    · change wm V wr.bytes wr.pos w = _
      rw [wm, start]
      refine gives_get ?_
      rw [run]
      exact given
    · rw [pending', pending_none run, overlay_nil, overlay_singleton]
  | some r =>
    obtain ⟨from_, upto⟩ := gathering.inside r run
    have next := continues r run
    by_cases joined : w.accelBuffEp = wr.pos
    · rw [if_pos joined] at next
      obtain ⟨closed, flushing, reconstructed, buf, wf, shown, every, -⟩ := gathering
      refine ⟨g, { w with accelBuffer := some (r ++ wr.bytes), accelBuffEp := int (w.accelBuffPos + wr.bytes.length) },
        ?_, ⟨⟨closed, flushing, reconstructed, buf, wf, shown, every, ?_⟩, ?_, Or.inl rfl, _, rfl, ?_, rfl⟩⟩
      · change wm V wr.bytes wr.pos w = _
        rw [wm, start]
        refine gives_get ?_
        rw [run]
        dsimp only
        rw [if_pos joined]
        exact gives_modify _ _
      · intro r' same
        rw [← Option.some.inj same, List.length_append]
        dsimp only
        omega
      · have joint := written_append g r wr.bytes w.accelBuffPos
        rw [next] at joint
        rw [pending_some run, pending_some rfl, overlay_singleton, overlay_singleton]
        exact joint.symm
      · rw [List.length_append]
        omega
    · rw [if_neg joined] at next
      obtain ⟨w₁, flushed, gathering₁, idle⟩ := gathering.flush cuts ideal small enough tracked run next
      obtain ⟨w', given, gathering', pending', run', end_⟩ := gathering₁.startRun low fits
      refine ⟨_, w', ?_, ⟨gathering', ?_, Or.inr rfl, _, run', le_refl _, end_⟩⟩
      · change wm V wr.bytes wr.pos w = _
        rw [wm, start]
        refine gives_get ?_
        rw [run]
        dsimp only
        rw [if_neg joined]
        exact Gives.bind flushed given
      · rw [pending', overlay_singleton]

/-! ### Runs of writes -/

theorem Gathering.mark (gathering : Gathering V P f g w) (dirty : Bool) (bytesWritten : Int) :
    Gathering V P f g { w with dirty := dirty, bytesWritten := bytesWritten } :=
  ⟨gathering.closed, gathering.flushing, gathering.reconstructed, gathering.buf, gathering.wf, gathering.shown,
    gathering.every, gathering.inside⟩

theorem Continues.mark {pos : Int} (continues : Continues V w pos) : Continues V { w with dirty := true } pos := by
  intro r run
  have next := continues r run
  split
  · rename_i joined
    rwa [if_pos joined] at next
  · rename_i other
    rw [if_neg other] at next
    exact ⟨next.writes, next.room, next.few⟩

theorem write_gathering (cuts : V.Cuts) (ideal : V.Ideal) (cluster : 1 < V.config.maxHashCluster)
    (small : V.config.chunkLength < 2 ^ 31) (enough : V.config.chunkLength.toNat ≤ V.turns) (tracked : Tracked V P)
    (gathering : Gathering V P f g w) {wr : Write} (part : Partial V wr) (continues : Continues V w wr.pos) :
    ∃ g' w', (write V wr.bytes wr.pos).Gives w () w' ∧ Gathered V P f g w wr g' w' := by
  obtain ⟨low, fits, notWhole⟩ := part
  obtain ⟨g', w₁, given, gathering₁, overlaid, extents, ended⟩ :=
    wm_gathering cuts ideal small enough tracked (gathering.mark true w.bytesWritten) low fits continues.mark
  refine ⟨g', _, ?_, ⟨gathering₁.mark w₁.dirty (int (w₁.bytesWritten + wr.bytes.length)), overlaid, extents, ended⟩⟩
  have open_ : ¬ (w.closed ∨ w.flushing) := by simp [gathering.closed, gathering.flushing]
  have accelerated : ({ w with dirty := true } : WritableCacheBuffer σ).buf.isNone ∧
      ({ w with dirty := true } : WritableCacheBuffer σ).reconstructed ∧ 1 < V.config.maxHashCluster := by
    refine ⟨?_, gathering.reconstructed, cluster⟩
    dsimp only
    rw [gathering.buf]
    rfl
  have through : (writeBytes V wr.bytes wr.pos).Gives { w with dirty := true } () w₁ := by
    rw [writeBytes]
    refine gives_get ?_
    rw [if_neg notWhole, if_pos accelerated]
    exact given
  rw [write]
  refine gives_get ?_
  rw [if_neg open_]
  exact gives_modify_bind (Gives.bind through (gives_modify _ w₁))

def writeAll (V : Services σ) : List Write → Method σ Unit
  | [] => pure ()
  | wr :: ws => do
    write V wr.bytes wr.pos
    writeAll V ws

/-- Every write of the sequence continues the run it meets or can flush it, and the last run can be flushed. -/
def AllContinue (V : Services σ) : WritableCacheBuffer σ → List Write → Prop
  | w, [] => ∀ r, w.accelBuffer = some r → CanFlush V w r
  | w, wr :: ws => Continues V w wr.pos ∧ ∀ w', (write V wr.bytes wr.pos).Gives w () w' → AllContinue V w' ws

theorem writeAll_gathering (cuts : V.Cuts) (ideal : V.Ideal) (cluster : 1 < V.config.maxHashCluster)
    (small : V.config.chunkLength < 2 ^ 31) (enough : V.config.chunkLength.toNat ≤ V.turns) (tracked : Tracked V P)
    (gathering : Gathering V P f g w) {ws : List Write} (parts : ∀ wr ∈ ws, Partial V wr) (all : AllContinue V w ws) :
    ∃ g' w', (writeAll V ws).Gives w () w' ∧ Gathering V P f g' w' ∧
      overlay g' (pending w') = overlay (overlay g (pending w)) ws ∧ AllContinue V w' [] := by
  induction ws generalizing w g with
  | nil => exact ⟨g, w, gives_pure () w, gathering, rfl, all⟩
  | cons wr ws ih =>
    obtain ⟨first, later⟩ := List.forall_mem_cons.mp parts
    obtain ⟨g₁, w₁, given, gathered⟩ := write_gathering cuts ideal cluster small enough tracked gathering first all.1
    obtain ⟨g', w', rest, gathering', overlaid, last⟩ := ih gathered.gathering later (all.2 w₁ given)
    refine ⟨g', w', Gives.bind given rest, gathering', ?_, last⟩
    rw [overlaid, gathered.overlaid, overlay_cons]

theorem tracked_true : Tracked V fun _ _ => True :=
  ⟨fun _ => ⟨fun _ _ _ => trivial, fun _ _ _ => trivial⟩, fun _ _ => trivial, fun _ _ _ _ _ _ _ _ => trivial⟩

/-- After any partial writes that continue the runs they join, and that meet no run whose first chunk is
inside an extent, the extents show the chunk with the writes over it in their order. -/
theorem accelerated_overlay (cuts : V.Cuts) (ideal : V.Ideal) (cluster : 1 < V.config.maxHashCluster)
    (small : V.config.chunkLength < 2 ^ 31) (enough : V.config.chunkLength.toNat ≤ V.turns)
    (closed : w.closed = false) (flushing : w.flushing = false) (reconstructed : w.reconstructed = true)
    (buf : w.buf = none) (wf : w.ar.WellFormed V.config.chunkLength) (inside : RunInside V w) {ws : List Write}
    (parts : ∀ wr ∈ ws, Partial V wr) (all : AllContinue V w ws) :
    ∃ w₁ w', (writeAll V ws).Gives w () w₁ ∧ (writeAccelBuffer V).Gives w₁ () w' ∧
      w'.ar.WellFormed V.config.chunkLength ∧ w'.accelBuffer = none ∧
      Shows V w'.store w'.direct w'.ar w.ar.denotes (overlay (fun _ => none) (pending w ++ ws)) := by
  have start : Gathering V (fun _ _ => True) w.ar.denotes (fun _ => none) w :=
    ⟨closed, flushing, reconstructed, buf, wf, fun _ => rfl, fun _ _ _ => trivial, inside⟩
  obtain ⟨g, w₁, given, gathering, overlaid, last⟩ :=
    writeAll_gathering cuts ideal cluster small enough tracked_true start parts all
  rw [overlay_append, ← overlaid]
  cases run : w₁.accelBuffer with
  | none =>
    refine ⟨w₁, w₁, given, writeAccelBufferIn_none run V.stack, gathering.wf, run, ?_⟩
    rw [pending_none run, overlay_nil]
    exact gathering.shown
  | some r =>
    obtain ⟨w', flushed, result, idle⟩ := gathering.flush cuts ideal small enough tracked_true run (last r run)
    exact ⟨w₁, w', given, flushed, result.wf, idle, result.shown⟩

def sampleBuffer (ar : Fingers) : WritableCacheBuffer Unit := open_ (ofDedupChunk sample () ar false 0 true true)

theorem accelerated_overlay_tail :
    ∃ w₁ w', (writeAll sample [⟨[97, 98], 98⟩, ⟨[99], 100⟩]).Gives (sampleBuffer Fingers.oneExtent) () w₁ ∧
      (writeAccelBuffer sample).Gives w₁ () w' ∧ w'.ar.WellFormed 16384 ∧ w'.accelBuffer = none ∧
      Shows sample w'.store w'.direct w'.ar Fingers.oneExtent.denotes
        (overlay (fun _ => none) [⟨[97, 98], 98⟩, ⟨[99], 100⟩]) := by
  have wf : Fingers.oneExtent.WellFormed 16384 := by
    refine ((Fingers.empty_wellFormed 16384).put (p := Fingers.hundredBytes) (by decide) (by decide) (by decide) ?_).1
    intro _ _ found
    cases found
  refine accelerated_overlay (w := sampleBuffer Fingers.oneExtent) sample_cuts sample_ideal (by decide) (by decide)
    (by decide) rfl rfl rfl rfl wf ?_ ?_ ?_
  · intro r run
    cases run
  · intro wr member
    rcases List.mem_cons.mp member with rfl | member
    · exact ⟨by decide, by decide, by decide⟩
    · rw [List.mem_singleton.mp member]
      exact ⟨by decide, by decide, by decide⟩
  · refine ⟨fun r run => (by cases run), fun w₁ given₁ => ?_⟩
    obtain ⟨v₁, v₂, run₁, buffer₁, pos₁, ep₁, run₂, buffer₂, pos₂, store₂, ar₂⟩ : ∃ v₁ v₂,
        (write sample [97, 98] 98).Gives (sampleBuffer Fingers.oneExtent) () v₁ ∧ v₁.accelBuffer = some [97, 98] ∧
          v₁.accelBuffPos = 98 ∧ v₁.accelBuffEp = 100 ∧ (write sample [99] 100).Gives v₁ () v₂ ∧
          v₂.accelBuffer = some [97, 98, 99] ∧ v₂.accelBuffPos = 98 ∧ v₂.store = () ∧ v₂.ar = Fingers.oneExtent :=
      ⟨_, _, rfl, rfl, rfl, rfl, rfl, rfl, rfl, rfl, rfl⟩
    obtain ⟨-, rfl⟩ := given₁.unique run₁
    refine ⟨fun r run => ?_, fun w₂ given₂ => ?_⟩
    · rw [ep₁, if_pos rfl, pos₁, ← Option.some.inj (buffer₁.symm.trans run)]
      rfl
    · obtain ⟨-, rfl⟩ := given₂.unique run₂
      intro r run
      obtain rfl := Option.some.inj (buffer₂.symm.trans run)
      refine ⟨rfl, fun fg rest cut k h stored before => ?_, fun recs ar wrote extents => ?_⟩
      · obtain ⟨-, rfl⟩ := mem_sample_chunks (cut ▸ List.mem_cons_self)
        rw [ar₂, Fingers.oneExtent_entry] at stored
        split at stored
        · rename_i here
          rw [pos₂, here, ← Option.some.inj stored]
          decide
        · cases stored
      · obtain ⟨recs', wrote', ar', extents', few⟩ :
            ∃ recs, (sample.persist () (sample.getChunks [97, 98, 99])).2 = some recs ∧
              ∃ ar, runExtents sample 98 recs Fingers.oneExtent = some ar ∧ ar.size = 2 := ⟨_, rfl, _, rfl, rfl⟩
        rw [store₂] at wrote
        obtain rfl := Option.some.inj (wrote'.symm.trans wrote)
        rw [pos₂, ar₂] at extents
        rw [← Option.some.inj (extents'.symm.trans extents), few]
        decide

/-- The third write goes where the second one ended, in the middle of the run. -/
theorem accelerated_overlay_backwards :
    ∃ w₁ w', (writeAll sample [⟨[97, 98], 0⟩, ⟨[99], 2⟩, ⟨[100], 1⟩]).Gives (sampleBuffer Fingers.empty) () w₁ ∧
      (writeAccelBuffer sample).Gives w₁ () w' ∧
      ¬ Shows sample w'.store w'.direct w'.ar Fingers.empty.denotes
        (overlay (fun _ => none) [⟨[97, 98], 0⟩, ⟨[99], 2⟩, ⟨[100], 1⟩]) := by
  obtain ⟨w₁, w', first, last, q, three⟩ : ∃ w₁ w',
      (writeAll sample [⟨[97, 98], 0⟩, ⟨[99], 2⟩, ⟨[100], 1⟩]).Gives (sampleBuffer Fingers.empty) () w₁ ∧
        (writeAccelBuffer sample).Gives w₁ () w' ∧ ∃ q, w'.ar.denotes 3 = some q := ⟨_, _, rfl, rfl, _, rfl⟩
  refine ⟨w₁, w', first, last, fun shown => ?_⟩
  have beyond : w'.ar.denotes 3 = none := shown 3
  rw [three] at beyond
  cases beyond

end EncryptedDedup.SDFS.WritableCacheBuffer
