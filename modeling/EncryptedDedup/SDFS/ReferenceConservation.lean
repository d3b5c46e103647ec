import EncryptedDedup.SDFS.FlushClaims
import EncryptedDedup.SDFS.MapTruncate
import EncryptedDedup.SDFS.PlainExtents

/-!
# Conservation of references

What a flush claims and releases is the difference between the references of the new record and of the old one, as long as
no write is accelerated, no bytes are put into a chunk with copied extents, and no extent is copied into another one.
-/

namespace EncryptedDedup.SDFS

open SparseDataChunk (Keyed)

namespace WritableCacheBuffer
open Program

variable {σ : Type} {V : Services σ} {ar₀ : Fingers} {w : WritableCacheBuffer (σ × Claims)}

/-! ### Calls -/

inductive Call where
  | write (b : Bytes) (pos : Int)
  | copyExtent (p : HashLocPair)

/-- A write of a part of the chunk goes to the accelerator. -/
def Accelerated (V : Services σ) (w : WritableCacheBuffer (σ × Claims)) : Prop :=
  w.buf.isNone ∧ w.reconstructed = true ∧ 1 < V.config.maxHashCluster

/-- A copied extent goes into the array. -/
def CopiesBytes (V : Services σ) (w : WritableCacheBuffer (σ × Claims)) : Prop :=
  w.dirty = true ∧ w.buf.isSome ∨ V.config.maxElementsPerAr ≤ w.ar.size

namespace Call

def run (V : Services σ) : Call → Method (σ × Claims) Unit
  | .write b pos => WritableCacheBuffer.write V.claiming b pos
  | .copyExtent p => WritableCacheBuffer.copyExtent V.claiming p

/-- No write is accelerated, no bytes are put into a chunk with copied extents, and no extent is copied into another one.
An extent that is copied was read from a map. -/
def Plain (V : Services σ) (w : WritableCacheBuffer (σ × Claims)) : Call → Prop
  | .write b pos => (pos = 0 ∧ b.length = V.config.chunkLength) ∨ ¬ Accelerated V w ∧ w.hlAdded = false
  | .copyExtent p => p.inserted = false ∧ (CopiesBytes V w → w.hlAdded = false) ∧ (¬ CopiesBytes V w → w.ar.Unsplit p)

end Call

inductive Calls (V : Services σ) : WritableCacheBuffer (σ × Claims) → List Call → WritableCacheBuffer (σ × Claims) → Prop where
  | nil {w : WritableCacheBuffer (σ × Claims)} : Calls V w [] w
  | cons {w w' w'' : WritableCacheBuffer (σ × Claims)} {c : Call} {cs : List Call} {r : Except Thrown Unit} :
    c.Plain V w → c.run V w = .finished (w', r) → Calls V w' cs w'' → Calls V w (c :: cs) w''

/-- Nothing is claimed. The extents are those of the record, or some were copied since the copy was made. -/
structure Unclaimed (ar₀ : Fingers) (w : WritableCacheBuffer (σ × Claims)) : Prop where
  claims : ∀ k, w.store.2 k = 0
  idle : w.accelBuffer = none
  plain : w.ar.Plain
  grows : Fingers.Grows ar₀ w.ar
  same : w.hlAdded = false → w.ar = ar₀
  spliced : w.hlAdded = true → w.arCopy = some ar₀.tree ∧ Keyed w.ar
  copy : ∀ tree, w.arCopy = some tree → tree = ar₀.tree

theorem readExtents_unclaimed (unclaimed : Unclaimed ar₀ w) (bytes : w.hlAdded = false) :
    (readExtents V.claiming).Leaves w fun w' => Unclaimed ar₀ w' ∧ w'.hlAdded = false := by
  obtain ⟨claims, idle, plain, grows, same, spliced, copy⟩ := unclaimed
  have kept : ∀ (buf : Option Wrapped) (bar : Option Bytes),
      Unclaimed ar₀ { w with hlAdded := false, buf := buf, bar := bar } ∧ false = false := fun _ _ =>
    ⟨⟨claims, idle, plain, grows, fun _ => same bytes, nofun, copy⟩, rfl⟩
  unfold readExtents
  refine leaves_modify_bind (leaves_get ?_)
  split
  · refine leaves_modify_bind ?_
    split
    · exact leaves_modify_bind (leaves_throw _ (kept _ _))
    · split
      · exact leaves_modify_bind (leaves_throw _ (kept _ _))
      · exact leaves_modify _ (kept _ _)
  · split
    · exact leaves_throw _ (kept _ _)
    · split
      · exact leaves_throw _ (kept _ _)
      · exact leaves_modify _ (kept _ _)

theorem initBuffer_unclaimed (unclaimed : Unclaimed ar₀ w) (bytes : w.hlAdded = false) :
    (initBuffer V.claiming).Leaves w fun w' => Unclaimed ar₀ w' ∧ w'.hlAdded = false := by
  refine Leaves.bind (J := fun w' => Unclaimed ar₀ w' ∧ w'.hlAdded = false)
    ((writeAccelBufferIn_none unclaimed.idle _).leaves ⟨unclaimed, bytes⟩) (fun _ kept => kept) fun _ t kept => ?_
  refine leaves_get ?_
  split
  · exact readExtents_unclaimed kept.1 kept.2
  · exact leaves_pure _ kept

theorem writeBlock_unclaimed (unclaimed : Unclaimed ar₀ w) (bytes : w.hlAdded = false) (b : Bytes) (pos : Int) :
    (writeBlock V.claiming b pos).Leaves w fun w' => Unclaimed ar₀ w' ∧ w'.hlAdded = false := by
  have ready := initBuffer_unclaimed (V := V) unclaimed bytes
  refine Leaves.bind ready (fun _ kept => kept) fun _ t kept => leaves_get ?_
  obtain ⟨⟨claims, idle, plain, grows, same, spliced, copy⟩, bytes⟩ := kept
  split
  · exact leaves_throw _ ⟨⟨claims, idle, plain, grows, same, spliced, copy⟩, bytes⟩
  · split
    · exact leaves_modify _ ⟨⟨claims, idle, plain, grows, fun _ => same bytes, nofun, copy⟩, rfl⟩
    · exact leaves_throw _ ⟨⟨claims, idle, plain, grows, same, spliced, copy⟩, bytes⟩

theorem write_unclaimed (unclaimed : Unclaimed ar₀ w) {b : Bytes} {pos : Int} (allowed : (Call.write b pos).Plain V w) :
    (write V.claiming b pos).Leaves w (Unclaimed ar₀) := by
  refine leaves_get ?_
  split
  · exact leaves_throw _ unclaimed
  · obtain ⟨claims, idle, plain, grows, same, spliced, copy⟩ := unclaimed
    have dirty : Unclaimed ar₀ { w with dirty := true } := ⟨claims, idle, plain, grows, same, spliced, copy⟩
    refine leaves_modify_bind (Leaves.bind (J := Unclaimed ar₀) ?_ (fun _ kept => kept) fun _ t kept => ?_)
    · refine leaves_get ?_
      split
      · exact leaves_modify _ ⟨claims, idle, plain, grows, same, spliced, copy⟩
      · rename_i part
        obtain ⟨slow, bytes⟩ := allowed.resolve_left part
        split
        · rename_i fast
          exact absurd fast slow
        · exact fun t r run => (writeBlock_unclaimed dirty bytes b pos t r run).1
    · obtain ⟨claims, idle, plain, grows, same, spliced, copy⟩ := kept
      exact leaves_modify _ ⟨claims, idle, plain, grows, same, spliced, copy⟩

theorem copyBytes_unclaimed (unclaimed : Unclaimed ar₀ w) (bytes : w.hlAdded = false) (p : HashLocPair) :
    (copyBytes V.claiming p).Leaves w (Unclaimed ar₀) := by
  refine leaves_get ?_
  split
  · exact leaves_throw _ unclaimed
  · split
    · exact leaves_throw _ unclaimed
    · refine Leaves.bind (writeBlock_unclaimed unclaimed bytes _ _) (fun _ kept => kept.1) fun _ t kept => ?_
      obtain ⟨⟨claims, idle, plain, grows, same, spliced, copy⟩, bytes⟩ := kept
      exact leaves_modify _ ⟨claims, idle, plain, grows, fun _ => same bytes, nofun, copy⟩

theorem copyReference_unclaimed (unclaimed : Unclaimed ar₀ w) (made : w.arCopy = some ar₀.tree) {p : HashLocPair}
    (unmarked : p.inserted = false) (unsplit : w.ar.Unsplit p) :
    (copyReference V.claiming p).Leaves w (Unclaimed ar₀) := by
  obtain ⟨claims, idle, plain, grows, same, spliced, copy⟩ := unclaimed
  have inserted : (insertReference V.claiming p).Leaves w (Unclaimed ar₀) := by
    refine leaves_modify_bind fun t r run => ?_
    unfold insertHashLocPair at run
    split at run
    · rename_i ar' found
      obtain ⟨rfl, -⟩ := Prod.mk.inj (Outcome.finished.inj run)
      obtain ⟨plain', grows', keyed'⟩ := plain.insert unsplit unmarked found
      exact ⟨claims, idle, plain', grows.trans grows', nofun, fun _ => ⟨made, keyed'⟩, copy⟩
    · rename_i ar' e found
      obtain ⟨rfl, -⟩ := Prod.mk.inj (Outcome.finished.inj run)
      obtain ⟨plain', grows', keyed'⟩ := plain.insert unsplit unmarked found
      exact ⟨claims, idle, plain', grows.trans grows', nofun, fun _ => ⟨made, keyed'⟩, copy⟩
    · cases run
    · cases run
  refine Leaves.handle inserted (fun _ kept => kept) fun _ t kept => leaves_modify_bind (leaves_throw _ ?_)
  obtain ⟨claims, idle, plain, grows, same, spliced, copy⟩ := kept
  exact ⟨claims, idle, plain, grows, same, spliced, copy⟩

theorem copyExtent_unclaimed (unclaimed : Unclaimed ar₀ w) {p : HashLocPair} (allowed : (Call.copyExtent p).Plain V w) :
    (copyExtent V.claiming p).Leaves w (Unclaimed ar₀) := by
  refine leaves_get ?_
  split
  · exact leaves_throw _ unclaimed
  · obtain ⟨unmarked, bytes, unsplit⟩ := allowed
    obtain ⟨claims, idle, plain, grows, same, spliced, copy⟩ := unclaimed
    have made : (w.arCopy <|> some w.ar.tree) = some ar₀.tree := by
      cases copied : w.arCopy with
      | some tree =>
        rw [copy tree copied]
        rfl
      | none =>
        cases added : w.hlAdded with
        | true =>
          rw [(spliced added).1] at copied
          cases copied
        | false =>
          rw [same added]
          rfl
    have kept : Unclaimed ar₀ { w with buf := if w.dirty then w.buf else none, arCopy := w.arCopy <|> some w.ar.tree } := by
      refine ⟨claims, idle, plain, grows, same, fun added => ⟨made, (spliced added).2⟩, fun tree copied => ?_⟩
      exact Option.some.inj (copied.symm.trans made)
    refine leaves_modify_bind (leaves_get ?_)
    have way : ((if w.dirty then w.buf else none).isSome ∨ V.claiming.config.maxElementsPerAr ≤ w.ar.size) ↔ CopiesBytes V w := by
      refine or_congr ?_ Iff.rfl
      cases w.dirty <;> simp
    by_cases copies : CopiesBytes V w
    · rw [if_pos (way.mpr copies)]
      exact copyBytes_unclaimed kept (bytes copies) p
    · rw [if_neg fun some_ => copies (way.mp some_)]
      exact copyReference_unclaimed kept made unmarked (unsplit copies)

theorem Calls.unclaimed {cs : List Call} {w' : WritableCacheBuffer (σ × Claims)} (calls : Calls V w cs w')
    (unclaimed : Unclaimed ar₀ w) : Unclaimed ar₀ w' := by
  induction calls with
  | nil => exact unclaimed
  | cons allowed ran _ ih =>
    refine ih ?_
    rename_i c _ _ _
    cases c with
    | write b pos => exact write_unclaimed unclaimed allowed _ _ ran
    | copyExtent p => exact copyExtent_unclaimed unclaimed allowed _ _ ran

/-! ### Flushes -/

open LongByteArrayMap

def extentsOf (r : Option SparseDataChunk) : List HashLocPair := (r.map fun ck => ck.ar.values).getD []

/-- A buffer as `getWriteBuffer` gives it, with what is claimed from then on. -/
def loaded (V : Services σ) (store : σ) (direct : Bool) (r : Option SparseDataChunk) : WritableCacheBuffer (σ × Claims) :=
  (marshalWriteBuffer V.claiming (store, fun _ => 0) direct r).open_

theorem loaded_unclaimed {m : LongByteArrayMap} {pos : Nat} {r : Option SparseDataChunk}
    (stored : get V.config m pos = .ok r) (store : σ) (direct : Bool) :
    ∃ ar₀, ar₀.values = extentsOf r ∧ ar₀.Plain ∧ Unclaimed ar₀ (loaded V store direct r) := by
  cases r with
  | none =>
    exact ⟨.empty, rfl, Fingers.empty_plain, fun _ => rfl, rfl, Fingers.empty_plain, .refl _, fun _ => rfl, nofun, nofun⟩
  | some ck =>
    have plain := get_plain stored
    exact ⟨ck.ar, rfl, plain, fun _ => rfl, rfl, plain, .refl _, fun _ => rfl, nofun, nofun⟩

/-- The record that is put has as many more references to a chunk as were claimed. -/
def Conserves (V : Services σ) (old : List HashLocPair) (w' : WritableCacheBuffer (σ × Claims))
    (new : List HashLocPair) : Prop :=
  ∀ h, V.counts h = true → w'.store.2 h.chunk = references h.chunk new - references h.chunk old

theorem rereferenced (fresh : ar₀.Plain) (unclaimed : Unclaimed ar₀ w) (added : w.hlAdded = true) (k : Bytes × Bytes) :
    (w.reReference k).getD 0 = references k w.ar.values - references k ar₀.values := by
  obtain ⟨made, -⟩ := unclaimed.spliced added
  have copies : references k w.copyValues = references k ar₀.values := by
    unfold copyValues Fingers.values references
    rw [made, List.countP_map, List.countP_map]
    refine List.countP_congr fun e member => ?_
    have known := fresh.fresh ((OrderedMap.get_eq_some _ _ _).mpr member)
    dsimp only [Function.comp]
    rw [unclaimed.grows.chunks e.2 known]
  have unmarked : ∀ h ∈ w.ar.values, h.inserted = false := by
    intro h member
    obtain ⟨e, -, rfl⟩ := List.mem_map.mp member
    exact unclaimed.plain.plain e.2
  unfold reReference
  rw [RefCounts.foldl_countUp unmarked, RefCounts.foldl_countDown, copies]
  have nothing : (RefCounts.empty k).getD 0 = 0 := rfl
  rw [nothing]
  ring

theorem values_ofFingers (keyed : Keyed w.ar) (doop : Int) (version : UInt8) :
    (SparseDataChunk.ofFingers doop w.ar version).ar.values = w.ar.values :=
  Fingers.values_ofValues (SparseDataChunk.ascending_of_keyed keyed)

variable {version : UInt8} {order : List (Finger × Int) → List (Finger × Int)}

theorem getFlushedBuffer_unclaimed (unclaimed : Unclaimed ar₀ w) (bytes : w.hlAdded = false) :
    (getFlushedBuffer V.claiming).Leaves w fun w' => Unclaimed ar₀ w' ∧ w'.hlAdded = false := by
  refine leaves_get ?_
  split
  · exact leaves_throw _ ⟨unclaimed, bytes⟩
  · refine Leaves.bind (J := fun w' => Unclaimed ar₀ w' ∧ w'.hlAdded = false) ?_ (fun _ kept => kept) fun _ t kept => ?_
    · split
      · exact initBuffer_unclaimed unclaimed bytes
      · exact leaves_pure _ ⟨unclaimed, bytes⟩
    · refine leaves_get ?_
      split
      · exact leaves_throw _ kept
      · exact leaves_pure _ kept

/-- A flush of bytes claims what the new extents refer to, and releases the old ones. -/
theorem writeCache_conserves (cuts : V.Cuts) (shuffled : ∀ es, (order es).Perm es) (unclaimed : Unclaimed ar₀ w)
    (bytes : w.hlAdded = false) {ck : SparseDataChunk} {w' : WritableCacheBuffer (σ × Claims)}
    (given : (writeCache V version order).Gives w ck w') : Conserves V ar₀.values w' ck.ar.values := by
  unfold writeCache at given
  obtain ⟨b, w₁, got, given⟩ := given.of_bind
  obtain ⟨unclaimed₁, bytes₁⟩ := getFlushedBuffer_unclaimed unclaimed bytes w₁ _ got
  rw [gives_get_iff] at given
  dsimp only at given
  have filled : ∀ f ∈ V.getChunks b, 0 < f.len := by
    intro f member
    rw [cuts.len b f member]
    exact Int.natCast_pos.mpr (List.length_pos_iff.mpr (cuts.filled b f member))
  have perm := shuffled ((Services.countFingers (V.getChunks b)).entries.map Prod.snd)
  split at given
  · exact absurd given not_gives_throw
  · rename_i store hls written
    rw [gives_modify_iff] at given
    obtain ⟨-, claimed⟩ := Services.writeFingers_claims
      (fun e member => Services.mem_countFingers (perm.mem_iff.mp member))
      ((perm.map _).nodup_iff.mpr (by rw [Services.hashes_countFingers]; exact OrderedMap.keys_nodup _)) written
    split at given
    · exact absurd given not_gives_throw
    · rename_i ps laid
      obtain ⟨ascending, -, counts⟩ := Services.layFingers_spec filled laid
      unfold assignAR at given
      rw [gives_modify_iff, gives_pure_iff] at given
      obtain ⟨rfl, rfl⟩ := given
      have values : (Fingers.ofValues ps).values = ps := Fingers.values_ofValues ascending
      intro h counted
      have record : ∀ doop, (SparseDataChunk.ofFingers doop (.ofValues ps) version).ar.values = ps := fun doop => by
        unfold SparseDataChunk.ofFingers
        dsimp only
        rw [values, values]
      rw [record, counts]
      dsimp only
      rw [Services.addRefs_counted _ _ counted, claimed, unclaimed₁.claims]
      unfold setAR
      rw [RefCounts.foldl_countDown, unclaimed₁.same bytes₁]
      have nothing : (RefCounts.empty h.chunk).getD 0 = 0 := rfl
      rw [nothing]
      ring

theorem Unclaimed.conserves (unclaimed : Unclaimed ar₀ w) : Conserves V ar₀.values w ar₀.values := by
  intro h _
  rw [unclaimed.claims, sub_self]

theorem closeFlushing_conserves (cuts : V.Cuts) (shuffled : ∀ es, (order es).Perm es) (fresh : ar₀.Plain)
    (unclaimed : Unclaimed ar₀ w) {r : Option SparseDataChunk} {w' : WritableCacheBuffer (σ × Claims)}
    (given : (closeFlushing V version order).Gives w r w') :
    Conserves V ar₀.values w' ((r.map fun ck => ck.ar.values).getD ar₀.values) := by
  unfold closeFlushing at given
  obtain ⟨_, w₁, waited, given⟩ := given.of_bind
  obtain ⟨-, rfl⟩ := (writeAccelBufferIn_none unclaimed.idle _).unique waited
  rw [gives_get_iff] at given
  split at given
  · obtain ⟨rfl, rfl⟩ := gives_pure_iff.mp given
    exact unclaimed.conserves
  · split at given
    · rename_i added
      unfold rereference at given
      rw [gives_modify_iff, gives_modify_iff, gives_pure_iff] at given
      obtain ⟨rfl, rfl⟩ := given
      intro h counted
      rw [Option.map_some, Option.getD_some, values_ofFingers (unclaimed.spliced added).2]
      unfold afterClose
      dsimp only
      rw [Services.addRefs_counted _ _ counted, unclaimed.claims, rereferenced fresh unclaimed added, zero_add]
    · rename_i bytes
      split at given
      · obtain ⟨ck, w₂, cached, given⟩ := given.of_bind
        rw [gives_modify_iff, gives_pure_iff] at given
        obtain ⟨rfl, rfl⟩ := given
        have conserved := writeCache_conserves cuts shuffled unclaimed (Bool.eq_false_iff.mpr bytes) cached
        exact fun h counted => conserved h counted
      · rw [gives_modify_iff, gives_pure_iff] at given
        obtain ⟨rfl, rfl⟩ := given
        exact fun h counted => unclaimed.conserves h counted

theorem close_conserves (cuts : V.Cuts) (shuffled : ∀ es, (order es).Perm es) (fresh : ar₀.Plain)
    (unclaimed : Unclaimed ar₀ w) {r : Option SparseDataChunk} {w' : WritableCacheBuffer (σ × Claims)}
    (given : (close V version order).Gives w r w') :
    Conserves V ar₀.values w' ((r.map fun ck => ck.ar.values).getD ar₀.values) := by
  unfold close at given
  rw [gives_get_iff] at given
  split at given
  · refine closeFlushing_conserves cuts shuffled fresh unclaimed (given.of_handle fun e u opened => ?_)
    rw [gives_modify_iff] at opened
    exact not_gives_throw opened
  · obtain ⟨rfl, rfl⟩ := gives_pure_iff.mp given
    exact unclaimed.conserves

theorem flush_unclaimed (unclaimed : Unclaimed ar₀ w) : Unclaimed ar₀ w.flush := by
  obtain ⟨claims, idle, plain, grows, same, spliced, copy⟩ := unclaimed
  unfold flush
  split_ifs <;> exact ⟨claims, idle, plain, grows, same, spliced, copy⟩

/-- Over calls none of which is accelerated, writes into copied extents or splits one, a flush conserves the references. -/
theorem flush_conserves (cuts : V.Cuts) (shuffled : ∀ es, (order es).Perm es) {m : LongByteArrayMap} {pos : Nat}
    {old new : Option SparseDataChunk} (stored : get V.config m pos = .ok old) (store : σ) (direct : Bool)
    {cs : List Call} {w' : WritableCacheBuffer (σ × Claims)} (calls : Calls V (loaded V store direct old) cs w)
    (closed : (close V m.version order).Gives w.flush new w') :
    Conserves V (extentsOf old) w' ((new.map fun ck => ck.ar.values).getD (extentsOf old)) := by
  obtain ⟨ar₀, values, fresh, unclaimed⟩ := loaded_unclaimed stored store direct
  rw [← values]
  exact close_conserves cuts shuffled fresh (flush_unclaimed (calls.unclaimed unclaimed)) closed

def abc : HashLocPair := ⟨sampleHash [97, 98, 99], sampleLocation [97, 98, 99], 3, 0, 0, 3, false, false⟩

def abcd : HashLocPair := ⟨sampleHash [97, 98, 99, 100], sampleLocation [97, 98, 99, 100], 4, 3, 0, 4, false, true⟩

def brief : Services Unit := { sample with config := ⟨16, 16, 4, 3⟩, turns := 17 }

theorem brief_cuts : brief.Cuts := ⟨sample_cuts.all, sample_cuts.filled, sample_cuts.len⟩

def xyz : HashLocPair := { abc with hash := sampleHash [120, 121, 122], hashloc := sampleLocation [120, 121, 122] }

def threeLetters (h : HashLocPair) : SparseDataChunk := ⟨0, 0, 0, 0, 2, Fingers.empty.put 0 h⟩

def lettersMap : LongByteArrayMap := step brief.config (create 2) (.put 0 (threeLetters abc))

def lettersRecord : SparseDataChunk :=
  match get brief.config lettersMap 0 with
  | .ok (some ck) => ck
  | _ => ⟨0, 0, 0, 0, 0, .empty⟩

theorem get_letters : get brief.config lettersMap 0 = .ok (some lettersRecord) := by
  have found : (match get brief.config lettersMap 0 with
    | .ok (some _) => true
    | _ => false) = true := by decide +kernel
  unfold lettersRecord
  generalize get brief.config lettersMap 0 = r at found ⊢
  split at found
  · rfl
  · cases found

theorem unsplit_of_entries {ar : Fingers} {p : HashLocPair} (low : 0 ≤ p.pos) (range : p.pos ≤ p.ep)
    (all : ∀ e ∈ ar.tree.entries, (ar.objects e.2).pos = e.1 ∧
      ((ar.objects e.2).pos < p.pos → p.pos ≤ (ar.objects e.2).ep → (ar.objects e.2).ep ≤ p.ep)) : ar.Unsplit p := by
  have entries {k : Int} {h : HashLocPair} (stored : ar.entry k = some h) : h.pos = k ∧ (h.pos < p.pos → p.pos ≤ h.ep → h.ep ≤ p.ep) := by
    obtain ⟨r, found, rfl⟩ := Fingers.get_of_entry stored
    exact all _ ((OrderedMap.get_eq_some _ _ _).mp found)
  exact ⟨low, range, fun k h stored => (entries stored).1, fun k h stored => (entries stored).2⟩

def lettersLoaded : WritableCacheBuffer (Unit × Claims) := loaded brief () false (some lettersRecord)

def behind : HashLocPair := { abcd with inserted := false }

def lettersBehind : WritableCacheBuffer (Unit × Claims) := ((Call.copyExtent behind).run brief).left lettersLoaded

def lettersOver : WritableCacheBuffer (Unit × Claims) := ((Call.copyExtent xyz).run brief).left lettersBehind

/-- The extent that is displaced is released, and the two that are copied are claimed. -/
theorem flush_conserves_displaced :
    get brief.config lettersMap 0 = .ok (some lettersRecord) ∧
      Calls brief (loaded brief () false (some lettersRecord)) [.copyExtent behind, .copyExtent xyz] lettersOver ∧
      ∃ w' new, (close brief 2 id).Gives lettersOver.flush new w' ∧
        Conserves brief (extentsOf (some lettersRecord)) w' ((new.map fun ck => ck.ar.values).getD (extentsOf (some lettersRecord))) ∧
        w'.store.2 abc.chunk = -1 ∧ w'.store.2 behind.chunk = 1 ∧ w'.store.2 xyz.chunk = 1 := by
  have bytes : ¬ CopiesBytes brief lettersLoaded ∧ ¬ CopiesBytes brief lettersBehind := by
    unfold CopiesBytes
    decide +kernel
  have calls : Calls brief (loaded brief () false (some lettersRecord)) [.copyExtent behind, .copyExtent xyz] lettersOver := by
    obtain ⟨_, first⟩ := Program.gives_left (p := (Call.copyExtent behind).run brief) (s := lettersLoaded) (by decide +kernel)
    obtain ⟨_, second⟩ := Program.gives_left (p := (Call.copyExtent xyz).run brief) (s := lettersBehind) (by decide +kernel)
    refine .cons ⟨rfl, fun copies => absurd copies bytes.1, fun _ => unsplit_of_entries (by decide) (by decide) ?_⟩ first
      (.cons ⟨rfl, fun copies => absurd copies bytes.2, fun _ => unsplit_of_entries (by decide) (by decide) ?_⟩ second .nil)
    · decide +kernel
    · decide +kernel
  obtain ⟨new, closed⟩ := Program.gives_left (p := close brief 2 id) (s := lettersOver.flush) (by decide +kernel)
  exact ⟨get_letters, calls, _, new, closed,
    flush_conserves brief_cuts (fun _ => .refl _) get_letters () false calls closed, by decide +kernel⟩

/-- The chunk that was written has two references, and the record one extent. -/
theorem accelerated_not_conserved :
    get brief.config (create 2) 0 = .ok none ∧ ∃ w w₁ w' ck, (Call.copyExtent abc).run brief (loaded brief () false none) = .finished (w, .ok ()) ∧
      (Call.write [97, 98, 99, 100] 3).run brief w = .finished (w₁, .ok ()) ∧
      (close brief 2 id).Gives w₁.flush (some ck) w' ∧ ¬ Conserves brief [] w' ck.ar.values := by
  refine ⟨rfl, _, _, _, _, rfl, rfl, rfl, fun conserves => ?_⟩
  exact absurd (conserves abcd (by decide +kernel)) (by decide +kernel)

end WritableCacheBuffer

end EncryptedDedup.SDFS
