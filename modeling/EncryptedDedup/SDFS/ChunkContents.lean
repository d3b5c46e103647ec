import EncryptedDedup.Lib.Overlay
import EncryptedDedup.SDFS.InsertRun
import EncryptedDedup.SDFS.WritableCacheBuffer

/-!
# The bytes of a chunk

What the extents of a buffer show, and what writing a run from the accelerator does to it.
-/

namespace EncryptedDedup.SDFS

namespace Services

variable {σ : Type}

/-- The fingers are the pieces of the input. -/
structure Cuts (V : Services σ) : Prop where
  all : ∀ b, ((V.getChunks b).map Finger.chunk).flatten = b
  filled : ∀ b, ∀ f ∈ V.getChunks b, f.chunk ≠ []
  len : ∀ b, ∀ f ∈ V.getChunks b, f.len = f.chunk.length

/-- What can be fetched from `s` can be fetched from `s'`. -/
def Keeps (V : Services σ) (s s' : σ) : Prop :=
  ∀ {h l d c}, V.fetchChunk s h l d = some c → V.fetchChunk s' h l d = some c

/-- Writing a finger can fail. Where it does not, the chunk is given back from then on, and so is what the store had. -/
structure Ideal (V : Services σ) : Prop where
  fetched : ∀ {b f s s' hl}, f ∈ V.getChunks b → V.writeChunk s f.hash f.chunk = some (s', hl) →
    ∀ d, V.fetchChunk s' f.hash hl.hashlocs d = some f.chunk
  kept : ∀ {b f s s' hl}, f ∈ V.getChunks b → V.writeChunk s f.hash f.chunk = some (s', hl) → V.Keeps s s'

/-- The record is from writing the chunk. -/
def Wrote (V : Services σ) (r : Finger × InsertRecord) : Prop :=
  ∃ s s', V.writeChunk s r.1.hash r.1.chunk = some (s', r.2)

variable {V : Services σ}

theorem Ideal.configured (ideal : V.Ideal) (K : Config) (turns : Nat) :
    ({ V with config := K, turns := turns } : Services σ).Ideal := ⟨ideal.fetched, ideal.kept⟩

theorem Ideal.persist (ideal : V.Ideal) {b : Bytes} {fs : List Finger} (cut : ∀ f ∈ fs, f ∈ V.getChunks b) {s : σ}
    {recs : List (Finger × InsertRecord)} (wrote : (V.persist s fs).2 = some recs) :
    recs.map Prod.fst = fs ∧ V.Keeps s (V.persist s fs).1 ∧
      ∀ r ∈ recs, V.Wrote r ∧ ∀ d, V.fetchChunk (V.persist s fs).1 r.1.hash r.2.hashlocs d = some r.1.chunk := by
  induction fs generalizing s recs with
  | nil =>
    obtain rfl := Option.some.inj wrote
    exact ⟨rfl, fun found => found, fun _ member => absurd member List.not_mem_nil⟩
  | cons f fs ih =>
    obtain ⟨own, others⟩ := List.forall_mem_cons.mp cut
    unfold Services.persist at wrote ⊢
    cases result : V.writeChunk s f.hash f.chunk with
    | none =>
      rw [result] at wrote
      cases wrote
    | some stored =>
      obtain ⟨s', hl⟩ := stored
      rw [result] at wrote
      obtain ⟨recs', later, rfl⟩ := Option.map_eq_some_iff.mp wrote
      obtain ⟨firsts, keeps, every⟩ := ih others later
      dsimp only
      refine ⟨by simp [firsts], fun found => keeps (ideal.kept own result found), fun r member => ?_⟩
      rcases List.mem_cons.mp member with rfl | rest
      · exact ⟨⟨s, s', result⟩, fun d => keeps (ideal.fetched own result d)⟩
      · exact every r rest

end Services

/-! ### What extents show -/

/-- Where `g` has a byte the extents refer to it, and elsewhere they refer to what `f` says. -/
def Shows {σ : Type} (V : Services σ) (s : σ) (d : Bool) (ar : Fingers) (f : Int → Option Piece) (g : Int → Option UInt8) :
    Prop :=
  ∀ x, match g x with
    | none => ar.denotes x = f x
    | some v => ∃ q c, ar.denotes x = some q ∧ V.fetchChunk s q.hash q.hashloc d = some c ∧ byteAt c q.offset = some v

/-- Every extent that starts before `ep` ends at most at `last`. -/
def Room (ar : Fingers) (ep last : Int) : Prop := ∀ k h, ar.entry k = some h → k < ep → k + h.nlen ≤ last

namespace WritableCacheBuffer

variable {σ : Type} {V : Services σ} {s : σ} {d : Bool} {ar : Fingers} {f : Int → Option Piece} {g : Int → Option UInt8}

theorem shows_keeps {s' : σ} (keeps : V.Keeps s s') (shown : Shows V s d ar f g) : Shows V s' d ar f g := by
  intro x
  have at_ := shown x
  split
  · rename_i blank
    rwa [blank] at at_
  · rename_i v byte
    rw [byte] at at_
    obtain ⟨q, c, denoted, fetched, there⟩ := at_
    exact ⟨q, c, denoted, keeps fetched, there⟩

theorem shows_patch {ar' : Fingers} {p : HashLocPair} {b : Bytes} (shown : Shows V s d ar f g)
    (denotes : ar'.denotes = patch HashLocPair.covers HashLocPair.piece ar.denotes p) (length : p.nlen = b.length)
    (bytes : ∀ x v, p.covers x = true → byteAt b (x - p.pos) = some v →
      ∃ c, V.fetchChunk s p.hash p.hashloc d = some c ∧ byteAt c (p.piece x).offset = some v) :
    Shows V s d ar' f (written g ⟨b, p.pos⟩) := by
  have same (x : Int) : Write.covers ⟨b, p.pos⟩ x = p.covers x := by
    rw [Write.covers, HashLocPair.covers, length]
  intro x
  rw [written, patch, same, denotes, patch]
  cases covered : p.covers x with
  | false => exact shown x
  | true =>
    rw [if_pos rfl]
    have there := Write.byteAt_of_covers ((same x).trans covered)
    obtain ⟨c, fetched, byte⟩ := bytes x _ covered there
    exact ⟨p.piece x, c, if_pos rfl, fetched, byte⟩

theorem insert_finger (small : V.config.chunkLength < 2 ^ 31) (enough : V.config.chunkLength.toNat ≤ V.turns)
    {fg : Finger} {hl : InsertRecord} {ep : Int} (wf : ar.WellFormed V.config.chunkLength) (shown : Shows V s d ar f g)
    (filled : fg.chunk ≠ []) (len : fg.len = fg.chunk.length)
    (fetched : V.fetchChunk s fg.hash hl.hashlocs d = some fg.chunk) (low : 0 ≤ ep)
    (fits : ep + fg.chunk.length ≤ V.config.chunkLength) (room : Room ar ep (ep + fg.chunk.length)) :
    ∃ ar', ar.insertHashLocPair V.config.chunkLength V.turns (extentOf V.config.chunkLength ep fg hl) =
        .finished (ar', none) ∧
      ar'.WellFormed V.config.chunkLength ∧ Shows V s d ar' f (written g ⟨fg.chunk, ep⟩) ∧
      Room ar' (ep + fg.chunk.length) (ep + fg.chunk.length) ∧
      ∀ P, Fingers.CutClosed P → (∀ k h, ar.entry k = some h → P h) → P (extentOf V.config.chunkLength ep fg hl) →
        ∀ k h, ar'.entry k = some h → P h := by
  have positive := List.length_pos_of_ne_nil filled
  have nlen : (extentOf V.config.chunkLength ep fg hl).nlen = fg.chunk.length := by
    have whole : int (ep + fg.len) = ep + fg.chunk.length := by
      rw [len]
      exact int_eq (by omega) (by omega)
    rw [extentOf, whole]
    dsimp only
    rw [if_pos fits, len]
  have pos : (extentOf V.config.chunkLength ep fg hl).pos = ep := rfl
  have extent : (extentOf V.config.chunkLength ep fg hl).IsExtent := by
    unfold HashLocPair.IsExtent
    rw [nlen, pos]
    omega
  have across : ∀ k h, ar.entry k = some h → k < (extentOf V.config.chunkLength ep fg hl).pos →
      k + h.nlen ≤ (extentOf V.config.chunkLength ep fg hl).pos + (extentOf V.config.chunkLength ep fg hl).nlen := by
    rw [nlen, pos]
    exact room
  have fits' : (extentOf V.config.chunkLength ep fg hl).pos + (extentOf V.config.chunkLength ep fg hl).nlen ≤
      V.config.chunkLength := by
    rw [nlen, pos]
    exact fits
  obtain ⟨ar', finished, wf', denotes, entry⟩ := Fingers.inserted_of_safe small wf extent fits' across enough
  refine ⟨ar', finished, wf', shows_patch shown denotes nlen ?_, ?_, fun P closed every new =>
    Fingers.every_inserted closed small wf extent fits' across enough every new finished⟩
  · intro x v covered byte
    rw [HashLocPair.covers_iff, nlen, pos] at covered
    have offset : int (0 + (x - ep)) = x - ep := by
      rw [zero_add]
      exact int_eq (by omega) (by omega)
    refine ⟨fg.chunk, fetched, ?_⟩
    rw [← byte]
    exact congrArg (byteAt fg.chunk) offset
  · -- What starts before the end of the finger is the finger itself or ends before it.
    intro k h stored before
    rw [pos] at entry
    rcases lt_trichotomy k ep with less | rfl | more
    · have apart := wf'.extents.disjoint stored entry less
      omega
    · rw [entry] at stored
      rw [← Option.some.inj stored, nlen]
    · have apart := wf'.extents.disjoint entry stored more
      rw [nlen] at apart
      omega

open Program

theorem insertHashLocPair_gives {w : WritableCacheBuffer σ} {p : HashLocPair} {ar' : Fingers}
    (finished : w.ar.insertHashLocPair V.config.chunkLength V.turns p = .finished (ar', none)) :
    (insertHashLocPair V p).Gives w () { w with ar := ar' } := by
  change insertHashLocPair V p w = _
  rw [insertHashLocPair, finished]

def runBytes (recs : List (Finger × InsertRecord)) : Bytes := (recs.map fun r => r.1.chunk).flatten

def runExtents (V : Services σ) (ep : Int) : List (Finger × InsertRecord) → Fingers → Option Fingers
  | [], ar => some ar
  | (fg, hl) :: rest, ar =>
    match ar.insertHashLocPair V.config.chunkLength V.turns (extentOf V.config.chunkLength ep fg hl) with
    | .finished (ar, none) => runExtents V (int (ep + fg.len)) rest ar
    | _ => none

theorem insertFingers_gives (small : V.config.chunkLength < 2 ^ 31) (enough : V.config.chunkLength.toNat ≤ V.turns)
    {recs : List (Finger × InsertRecord)} {w : WritableCacheBuffer σ} {ep : Int}
    (wf : w.ar.WellFormed V.config.chunkLength) (shown : Shows V w.store w.direct w.ar f g)
    (pieces : ∀ r ∈ recs, r.1.chunk ≠ [] ∧ r.1.len = r.1.chunk.length ∧
      V.fetchChunk w.store r.1.hash r.2.hashlocs w.direct = some r.1.chunk)
    (low : 0 ≤ ep) (fits : ep + (runBytes recs).length ≤ V.config.chunkLength)
    (room : ∀ r rest, recs = r :: rest → Room w.ar ep (ep + r.1.chunk.length)) :
    ∃ ar' doop, (insertFingers V ep recs).Gives w () { w with ar := ar', prevDoop := doop } ∧
      runExtents V ep recs w.ar = some ar' ∧ ar'.WellFormed V.config.chunkLength ∧ Shows V w.store w.direct ar' f (written g ⟨runBytes recs, ep⟩) ∧
      ∀ P, Fingers.CutClosed P → (∀ k h, w.ar.entry k = some h → P h) →
        (∀ r ∈ recs, ∀ e, 0 ≤ e → e + r.1.chunk.length ≤ V.config.chunkLength →
          P (extentOf V.config.chunkLength e r.1 r.2)) → ∀ k h, ar'.entry k = some h → P h := by
  induction recs generalizing w ep g with
  | nil =>
    refine ⟨w.ar, w.prevDoop, gives_pure () w, rfl, wf, ?_, fun _ _ every _ => every⟩
    have nothing : runBytes [] = [] := rfl
    rwa [nothing, written_empty]
  | cons r recs ih =>
    obtain ⟨⟨filled, len, fetched⟩, later⟩ := List.forall_mem_cons.mp pieces
    have bytes : runBytes (r :: recs) = r.1.chunk ++ runBytes recs := rfl
    rw [bytes, List.length_append] at fits
    obtain ⟨ar₁, finished, wf₁, shown₁, room₁, every₁⟩ :=
      insert_finger small enough wf shown filled len fetched low (by omega) (room r recs rfl)
    have next : int (ep + r.1.len) = ep + r.1.chunk.length := by
      rw [len]
      exact int_eq (by omega) (by omega)
    have room' : ∀ r' rest, recs = r' :: rest →
        Room ar₁ (ep + r.1.chunk.length) (ep + r.1.chunk.length + r'.1.chunk.length) := by
      intro r' rest _ k h stored before
      have ends := room₁ k h stored before
      omega
    obtain ⟨ar', doop, given, extents, wf', shown', every'⟩ := @ih _
      { w with ar := ar₁, prevDoop := int (w.prevDoop + if r.2.inserted then 0 else r.1.len) }
      (ep + r.1.chunk.length) wf₁ shown₁ later (by omega) (by omega) room'
    refine ⟨ar', doop, ?_, ?_, wf', ?_, ?_⟩
    · rw [insertFingers, next]
      refine gives_modify_bind (Gives.bind (insertHashLocPair_gives ?_) given)
      exact finished
    · rw [runExtents, finished, next]
      exact extents
    · rwa [bytes, ← written_append]
    · intro P closed every new
      obtain ⟨first, others⟩ := List.forall_mem_cons.mp new
      exact every' P closed (every₁ P closed every (first ep low (by omega))) others

/-! ### Writing the run -/

/-- A property of extents that holds of what is written, and goes on to hold when the store grows and when
extents are cut. -/
structure Tracked (V : Services σ) (P : σ → HashLocPair → Prop) : Prop where
  cut : ∀ s, Fingers.CutClosed (P s)
  keeps : ∀ {s s' h}, V.Keeps s s' → P s h → P s' h
  new : ∀ {s} {r : Finger × InsertRecord}, V.Wrote r → (∃ b, r.1 ∈ V.getChunks b) → r.1.chunk ≠ [] → r.1.len = r.1.chunk.length →
    (∀ d, V.fetchChunk s r.1.hash r.2.hashlocs d = some r.1.chunk) → ∀ e, 0 ≤ e →
    e + r.1.chunk.length ≤ V.config.chunkLength → P s (extentOf V.config.chunkLength e r.1 r.2)

/-- The store writes the fingers of the run, the first one is inside no extent, and there will not be too many extents. -/
structure CanFlush (V : Services σ) (w : WritableCacheBuffer σ) (b : Bytes) : Prop where
  writes : (V.persist w.store (V.getChunks b)).2.isSome
  room : ∀ fg rest, V.getChunks b = fg :: rest → Room w.ar w.accelBuffPos (w.accelBuffPos + fg.chunk.length)
  few : ∀ recs ar, (V.persist w.store (V.getChunks b)).2 = some recs →
    runExtents V w.accelBuffPos recs w.ar = some ar → ar.size < V.config.maxElementsPerAr

/-- What writing the run `b` makes of a buffer. -/
structure Flushed (V : Services σ) (f : Int → Option Piece) (g : Int → Option UInt8) (b : Bytes)
    (w w' : WritableCacheBuffer σ) : Prop where
  frame : w' = { w with
    store := w'.store, ar := w'.ar, prevDoop := w'.prevDoop, hlAdded := true, accelBuffer := none }
  wf : w'.ar.WellFormed V.config.chunkLength
  shown : Shows V w'.store w.direct w'.ar f (written g ⟨b, w.accelBuffPos⟩)
  keeps : V.Keeps w.store w'.store
  every : ∀ P, Tracked V P → (∀ k h, w.ar.entry k = some h → P w.store h) →
    ∀ k h, w'.ar.entry k = some h → P w'.store h

theorem countExtents_gives {w : WritableCacheBuffer σ} (few : w.ar.size < V.config.maxElementsPerAr)
    (initBuffer : Method σ Unit) : (countExtents V initBuffer).Gives w () { w with hlAdded := true } := by
  rw [countExtents]
  refine gives_get ?_
  rw [if_neg (not_le.mpr few)]
  exact gives_modify _ _

theorem writeAccelBufferIn_few (cuts : V.Cuts) (ideal : V.Ideal) (small : V.config.chunkLength < 2 ^ 31)
    (enough : V.config.chunkLength.toNat ≤ V.turns) {w : WritableCacheBuffer σ} {b : Bytes}
    (pending : w.accelBuffer = some b) (wf : w.ar.WellFormed V.config.chunkLength)
    (shown : Shows V w.store w.direct w.ar f g) (low : 0 ≤ w.accelBuffPos)
    (fits : w.accelBuffPos + b.length ≤ V.config.chunkLength) (can : CanFlush V w b) (stack : Nat) :
    ∃ w', (writeAccelBufferIn V (stack + 1)).Gives w () w' ∧ Flushed V f g b w w' ∧
      w'.ar.size < V.config.maxElementsPerAr := by
  obtain ⟨recs, wrote⟩ := Option.isSome_iff_exists.mp can.writes
  obtain ⟨firsts, keeps, every⟩ := ideal.persist (fun f member => member) wrote
  have bytes : runBytes recs = b := by
    have chunks : recs.map (fun r => r.1.chunk) = (V.getChunks b).map Finger.chunk := by
      rw [← firsts, List.map_map]
      rfl
    rw [runBytes, chunks, cuts.all b]
  have pieces : ∀ r ∈ recs, r.1.chunk ≠ [] ∧ r.1.len = r.1.chunk.length ∧
      V.fetchChunk (V.persist w.store (V.getChunks b)).1 r.1.hash r.2.hashlocs w.direct = some r.1.chunk := by
    intro r member
    have cut : r.1 ∈ V.getChunks b := firsts ▸ List.mem_map_of_mem member
    exact ⟨cuts.filled b _ cut, cuts.len b _ cut, (every r member).2 _⟩
  have room : ∀ r rest, recs = r :: rest → Room w.ar w.accelBuffPos (w.accelBuffPos + r.1.chunk.length) := by
    rintro r rest rfl
    exact can.room r.1 (rest.map Prod.fst) firsts.symm
  obtain ⟨ar', doop, given, extents, wf', shown', every'⟩ := @insertFingers_gives _ V f g small enough recs
    { w with store := (V.persist w.store (V.getChunks b)).1 } w.accelBuffPos wf (shows_keeps keeps shown) pieces low
    (by rw [bytes]; exact fits) room
  have few := can.few recs _ wrote extents
  refine ⟨{ w with
    store := (V.persist w.store (V.getChunks b)).1, ar := ar', prevDoop := doop, hlAdded := true, accelBuffer := none },
    ?_, ⟨rfl, wf', by rwa [bytes] at shown', keeps, ?_⟩, few⟩
  · rw [writeAccelBufferIn]
    refine gives_get ?_
    rw [pending]
    refine Gives.handle ?_
    rw [writeRun]
    refine gives_get (gives_modify_bind ?_)
    rw [wrote]
    have counted := @countExtents_gives _ V
      { w with store := (V.persist w.store (V.getChunks b)).1, ar := ar', prevDoop := doop } few
      (initBufferAfter V (writeAccelBufferIn V stack))
    exact Gives.bind given (Gives.bind counted (gives_modify _ _))
  · intro P tracked old
    refine every' _ (tracked.cut _) (fun k h stored => tracked.keeps keeps (old k h stored)) ?_
    intro r member e first last
    obtain ⟨filled, len, -⟩ := pieces r member
    have cut : r.1 ∈ V.getChunks b := firsts ▸ List.mem_map_of_mem member
    exact tracked.new (every r member).1 ⟨b, cut⟩ filled len (every r member).2 e first last

theorem writeAccelBufferIn_gives (cuts : V.Cuts) (ideal : V.Ideal) (small : V.config.chunkLength < 2 ^ 31)
    (enough : V.config.chunkLength.toNat ≤ V.turns) {w : WritableCacheBuffer σ} {b : Bytes}
    (pending : w.accelBuffer = some b) (wf : w.ar.WellFormed V.config.chunkLength)
    (shown : Shows V w.store w.direct w.ar f g) (low : 0 ≤ w.accelBuffPos)
    (fits : w.accelBuffPos + b.length ≤ V.config.chunkLength) (can : CanFlush V w b) (stack : Nat) :
    ∃ w', (writeAccelBufferIn V (stack + 1)).Gives w () w' ∧ Flushed V f g b w w' := by
  obtain ⟨w', given, flushed, -⟩ := writeAccelBufferIn_few cuts ideal small enough pending wf shown low fits can stack
  exact ⟨w', given, flushed⟩

theorem writeAccelBufferIn_none {w : WritableCacheBuffer σ} (idle : w.accelBuffer = none) (stack : Nat) :
    (writeAccelBufferIn V (stack + 1)).Gives w () w := by
  rw [writeAccelBufferIn]
  refine gives_get ?_
  rw [idle]
  exact gives_pure () w

end WritableCacheBuffer

/-! ### Services for small chunks -/

def letters : Bytes := List.replicate 16384 97

/-- MD5 of the chunks that the examples write; every other one has that of the empty chunk. -/
def sampleHash (c : Bytes) : Bytes :=
  if c = [97, 98, 99] then [144, 1, 80, 152, 60, 210, 79, 176, 214, 150, 63, 125, 40, 225, 127, 114]
  else if c = [97, 98, 99, 100] then [226, 252, 113, 76, 71, 39, 238, 147, 149, 243, 36, 205, 46, 127, 51, 31]
  else if c = [120, 121, 122] then [209, 111, 179, 111, 9, 17, 248, 120, 153, 140, 19, 97, 145, 175, 112, 94]
  else if c = List.replicate 4 0 then [241, 211, 255, 132, 67, 41, 119, 50, 134, 45, 242, 29, 196, 229, 114, 98]
  else if c = List.replicate 4096 0 then [98, 15, 11, 103, 169, 31, 127, 116, 21, 27, 197, 190, 116, 91, 113, 16]
  else if c = letters then [9, 180, 124, 240, 124, 157, 14, 165, 137, 224, 226, 170, 125, 13, 53, 80]
  else [212, 29, 140, 217, 143, 0, 178, 4, 233, 128, 9, 152, 236, 248, 66, 126]

def sampleLocation (c : Bytes) : Bytes := UInt8.ofNat (c.length + 1) :: (c ++ List.replicate (7 - c.length) 0)

def lettersLocation : Bytes := [255, 0, 0, 0, 0, 0, 0, 0]

def atLocation : Bytes → Option Bytes
  | [] => none
  | n :: rest => some (if n = 255 then letters else rest.take (n.toNat - 1))

/-- A chunk engine that does not cut short input, and a store that has the `a`s and takes chunks of up to seven bytes. -/
def sample : Services Unit where
  config := ⟨16384, 16, 4, 4095⟩
  getHash := sampleHash
  getChunks b := if b = [] then [] else [⟨b, sampleHash b, b.length⟩]
  writeChunk _ _ c := if c.length ≤ 7 then some ((), ⟨true, sampleLocation c⟩) else none
  fetchChunk _ _ l _ := atLocation l
  turns := 16385
  stack := 0

theorem atLocation_sampleLocation {c : Bytes} (short : c.length ≤ 7) : atLocation (sampleLocation c) = some c := by
  have byte : (UInt8.ofNat (c.length + 1)).toNat = c.length + 1 := by
    rw [UInt8.toNat_ofNat']
    omega
  have other : UInt8.ofNat (c.length + 1) ≠ 255 := by
    intro long
    rw [long] at byte
    have last : (255 : UInt8).toNat = 255 := rfl
    omega
  unfold sampleLocation atLocation
  dsimp only
  rw [if_neg other, byte, Nat.add_sub_cancel, List.take_left]

theorem writeChunk_sample {s s' : Unit} {h c : Bytes} {hl : InsertRecord} (wrote : sample.writeChunk s h c = some (s', hl)) :
    c.length ≤ 7 ∧ hl = ⟨true, sampleLocation c⟩ := by
  change (if c.length ≤ 7 then _ else _) = _ at wrote
  split at wrote
  · obtain ⟨-, rfl⟩ := Prod.mk.inj (Option.some.inj wrote)
    exact ⟨‹_›, rfl⟩
  · cases wrote

theorem mem_sample_chunks {b : Bytes} {fg : Finger} (member : fg ∈ sample.getChunks b) :
    b ≠ [] ∧ fg = ⟨b, sampleHash b, b.length⟩ := by
  change fg ∈ (if b = [] then [] else [⟨b, sampleHash b, b.length⟩]) at member
  split at member
  · cases member
  · exact ⟨‹_›, List.mem_singleton.mp member⟩

theorem sample_cuts : sample.Cuts := by
  refine ⟨fun b => ?_, fun b fg member => ?_, fun b fg member => ?_⟩
  · change (List.map Finger.chunk (if b = [] then [] else [⟨b, sampleHash b, b.length⟩])).flatten = b
    split
    · rename_i empty
      rw [empty]
      rfl
    · exact List.append_nil b
  · obtain ⟨filled, rfl⟩ := mem_sample_chunks member
    exact filled
  · obtain ⟨-, rfl⟩ := mem_sample_chunks member
    rfl

theorem sample_ideal : sample.Ideal := by
  refine ⟨fun {b f s s' hl} _ wrote d => ?_, fun {b f s s' hl} _ _ => ?_⟩
  · obtain ⟨short, rfl⟩ := writeChunk_sample wrote
    exact atLocation_sampleLocation short
  · intro _ _ _ _ found
    exact found

end EncryptedDedup.SDFS
