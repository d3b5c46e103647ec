import EncryptedDedup.SDFS.ChunkContents

/-!
# Reading the extents

A chunk whose extents can all be fetched has bytes. `initBuffer` puts them into the array, with zeros
between the extents.
-/

namespace EncryptedDedup.SDFS

/-- The bytes of `c` that an extent refers to. -/
def HashLocPair.bytesOf (h : HashLocPair) (c : Bytes) : Bytes := slice c h.offset.toNat h.nlen.toNat

variable {σ : Type}

/-- An extent has a location, and refers to bytes of the chunk that is stored there. -/
structure Refers (V : Services σ) (s : σ) (h : HashLocPair) (c : Bytes) : Prop where
  located : h.located = true
  fetched : ∀ d, V.fetchChunk s h.hash h.hashloc d = some c
  low : 0 ≤ h.offset
  inside : h.offset + h.nlen ≤ c.length
  short : c.length < 2 ^ 31
  blank : h.hash = V.bk → c = V.blankBlock

def Stored (V : Services σ) (s : σ) (h : HashLocPair) : Prop := ∃ c, Refers V s h c

def AllStored (V : Services σ) (s : σ) (ar : Fingers) : Prop := ∀ k h, ar.entry k = some h → Stored V s h

/-- What is written gets a location, and of the chunks only the blank block has its hash. -/
structure Services.Readable (V : Services σ) : Prop where
  located : ∀ {s h c s' hl}, V.writeChunk s h c = some (s', hl) → ofLE (hl.hashlocs.take 8).reverse ≠ 0
  blank : ∀ {b f}, f ∈ V.getChunks b → f.hash = V.bk → f.chunk = V.blankBlock

def contents (V : Services σ) (s : σ) (d : Bool) (ar : Fingers) (x : Int) : Option UInt8 :=
  (ar.denotes x).bind fun q => (V.fetchChunk s q.hash q.hashloc d).bind fun c => byteAt c q.offset

def chunkBytes (V : Services σ) (s : σ) (d : Bool) (ar : Fingers) (x : Int) : Option UInt8 :=
  if 0 ≤ x ∧ x < V.config.chunkLength then some ((contents V s d ar x).getD 0) else none

variable {V : Services σ} {s : σ} {d : Bool} {ar : Fingers} {h : HashLocPair} {c : Bytes}

/-! ### Stored extents -/

theorem byteAt_bytesOf (low : 0 ≤ h.offset) {x : Int} (covered : h.covers x = true) :
    byteAt (h.bytesOf c) (x - h.pos) = byteAt c (h.offset + (x - h.pos)) := by
  rw [HashLocPair.covers_iff] at covered
  have start : ((h.offset.toNat : Nat) : Int) = h.offset := Int.toNat_of_nonneg low
  rw [HashLocPair.bytesOf, byteAt_slice, if_pos (by omega), start]

theorem length_bytesOf (low : 0 ≤ h.offset) (filled : 0 ≤ h.nlen) (inside : h.offset + h.nlen ≤ c.length) :
    ((h.bytesOf c).length : Int) = h.nlen := by
  rw [HashLocPair.bytesOf, length_slice (by omega)]
  exact Int.toNat_of_nonneg filled

theorem Refers.offset_eq (refers : Refers V s h c) {x : Int} (covered : h.covers x = true) :
    (h.piece x).offset = h.offset + (x - h.pos) := by
  obtain ⟨-, -, low, inside, short, -⟩ := refers
  rw [HashLocPair.covers_iff] at covered
  exact int_eq (by omega) (by omega)

theorem Refers.chunkOf (refers : Refers V s h c) (d : Bool) : V.chunkOf s d h = some c := by
  have fetched := refers.fetched d
  rw [Services.chunkOf]
  split
  · rename_i blank
    rw [refers.blank blank]
  · exact fetched

theorem Refers.byteAt (refers : Refers V s h c) {x : Int} (covered : h.covers x = true) :
    ∃ v, byteAt c (h.offset + (x - h.pos)) = some v := by
  obtain ⟨-, -, low, inside, -, -⟩ := refers
  rw [HashLocPair.covers_iff] at covered
  exact byteAt_of_lt (by omega) (by omega)

namespace WritableCacheBuffer

theorem stored_tracked (readable : V.Readable) (small : V.config.chunkLength < 2 ^ 31) : Tracked V (Stored V) := by
  refine ⟨fun s => ⟨?_, ?_⟩, ?_, ?_⟩
  · rintro h ep ⟨c, located, fetched, low, inside, short, blank⟩ from_ upto
    have offset : (Fingers.behind ep h).offset = h.offset + (ep - h.pos) := int_eq (by omega) (by omega)
    have nlen : (Fingers.behind ep h).nlen = h.nlen - (ep - h.pos) := rfl
    exact ⟨c, located, fetched, by omega, by omega, short, blank⟩
  · rintro h p ⟨c, located, fetched, low, inside, short, blank⟩ from_ upto
    have nlen : (Fingers.before p h).nlen = p.pos - h.pos := rfl
    have offset : (Fingers.before p h).offset = h.offset := rfl
    exact ⟨c, located, fetched, low, by omega, short, blank⟩
  · rintro s s' h keeps ⟨c, located, fetched, low, inside, short, blank⟩
    exact ⟨c, located, fun d => keeps (fetched d), low, inside, short, blank⟩
  · rintro s r ⟨s₀, s₁, wrote⟩ ⟨b, cut⟩ filled len fetched e start fits
    have whole : int (e + r.1.len) = e + r.1.chunk.length := by
      rw [len]
      exact int_eq (by omega) (by omega)
    have nlen : (extentOf V.config.chunkLength e r.1 r.2).nlen = r.1.chunk.length := by
      rw [extentOf, whole]
      dsimp only
      rw [if_pos fits, len]
    refine ⟨r.1.chunk, decide_eq_true (readable.located wrote), fetched, le_refl _, ?_, by omega, readable.blank cut⟩
    rw [nlen]
    exact le_of_eq (zero_add _)

/-! ### The bytes of the extents -/

theorem contents_of_entry {chunkLength : Int} (wf : ar.WellFormed chunkLength) {k : Int} (stored : ar.entry k = some h)
    (refers : Refers V s h c) {x : Int} (covered : h.covers x = true) :
    contents V s d ar x = byteAt c (h.offset + (x - h.pos)) := by
  have denoted : ar.denotes x = some (h.piece x) := (wf.denotes_iff x _).mpr ⟨k, h, stored, covered, rfl⟩
  have fetched : V.fetchChunk s (h.piece x).hash (h.piece x).hashloc d = some c := refers.fetched d
  rw [contents, denoted, Option.bind_some, fetched, Option.bind_some, refers.offset_eq covered]

theorem contents_shows {chunkLength : Int} (wf : ar.WellFormed chunkLength) (all : AllStored V s ar) :
    Shows V s d ar (fun _ => none) (contents V s d ar) := by
  intro x
  cases denoted : ar.denotes x with
  | none =>
    have nothing : contents V s d ar x = none := by rw [contents, denoted, Option.bind_none]
    rw [nothing]
  | some q =>
    obtain ⟨k, h, stored, covered, rfl⟩ := (wf.denotes_iff x q).mp denoted
    obtain ⟨c, refers⟩ := all k h stored
    obtain ⟨v, there⟩ := refers.byteAt covered
    rw [contents_of_entry wf stored refers covered, there]
    refine ⟨_, c, rfl, refers.fetched d, ?_⟩
    rw [refers.offset_eq covered]
    exact there

theorem shows_contents {g : Int → Option UInt8} (shown : Shows V s d ar (fun _ => none) g) : g = contents V s d ar := by
  funext x
  have at_ := shown x
  rw [contents]
  cases byte : g x with
  | none =>
    rw [byte] at at_
    rw [at_, Option.bind_none]
  | some v =>
    rw [byte] at at_
    obtain ⟨q, c, denoted, fetched, there⟩ := at_
    rw [denoted, Option.bind_some, fetched, Option.bind_some, there]

theorem contents_of_blank {x : Int} (blank : ar.denotes x = none) : contents V s d ar x = none := by
  rw [contents, blank, Option.bind_none]

theorem contents_isSome {chunkLength : Int} (wf : ar.WellFormed chunkLength) (all : AllStored V s ar) (x : Int) :
    (contents V s d ar x).isSome = (ar.denotes x).isSome := by
  have at_ := contents_shows (d := d) wf all x
  split at at_
  · rename_i nothing
    rw [nothing, at_]
    rfl
  · rename_i byte
    obtain ⟨q, -, denoted, -⟩ := at_
    rw [byte, denoted]
    rfl

/-! ### The array of `initBuffer` -/

def pieceWrite (r : HashLocPair × Bytes) : Write := ⟨r.1.bytesOf r.2, r.1.pos⟩

/-- An extent of a chunk of `n` bytes, and the stored chunk it refers to. -/
structure Fits (n : Nat) (r : HashLocPair × Bytes) : Prop where
  pos : 0 ≤ r.1.pos
  nlen : 0 ≤ r.1.nlen
  room : r.1.pos + r.1.nlen ≤ n
  offset : 0 ≤ r.1.offset
  inside : r.1.offset + r.1.nlen ≤ r.2.length

theorem layOut_overlay {n : Nat} {parts : List (HashLocPair × Bytes)} (fits : ∀ r ∈ parts, Fits n r) {buf : ByteBuffer}
    (length : buf.array.length = n) :
    ∃ buf', layOut buf parts = some buf' ∧ buf'.array.length = n ∧
      byteAt buf'.array = overlay (byteAt buf.array) (parts.map pieceWrite) := by
  induction parts generalizing buf with
  | nil => exact ⟨buf, rfl, length, rfl⟩
  | cons r parts ih =>
    obtain ⟨sh, ck⟩ := r
    obtain ⟨⟨pos, nlen, room, offset, inside⟩, later⟩ := List.forall_mem_cons.mp fits
    dsimp only at pos nlen room offset inside
    have whole : (if (ck.length : Int) < sh.nlen then (ck.length : Int) else sh.nlen) = sh.nlen := if_neg (by omega)
    have wide := length_bytesOf offset nlen inside
    have start : ((sh.pos.toNat : Nat) : Int) = sh.pos := Int.toNat_of_nonneg pos
    have there : sh.pos.toNat + (sh.bytesOf ck).length ≤ buf.array.length := by omega
    have sought : buf.seek sh.pos = some ⟨buf.array, sh.pos.toNat⟩ := if_pos (by omega)
    have placed : (ByteBuffer.mk buf.array sh.pos.toNat).putPart ck sh.offset sh.nlen =
        some ⟨overwrite buf.array sh.pos.toNat (sh.bytesOf ck), sh.pos.toNat + (sh.bytesOf ck).length⟩ := by
      rw [ByteBuffer.putPart, if_pos ⟨offset, nlen, inside⟩]
      exact if_pos there
    obtain ⟨buf', laid, same, bytes⟩ :=
      @ih later ⟨overwrite buf.array sh.pos.toNat (sh.bytesOf ck), sh.pos.toNat + (sh.bytesOf ck).length⟩
        ((length_overwrite there).trans length)
    refine ⟨buf', ?_, same, ?_⟩
    · rw [layOut, if_neg (by omega), sought, Option.bind_some, whole, placed, Option.bind_some]
      exact laid
    · rw [List.map_cons, overlay_cons, bytes]
      rw [byteAt_overwrite_eq there, start]
      rfl

theorem chunks_found (d : Bool) {l : List HashLocPair} (all : ∀ h ∈ l, Stored V s h) :
    ∃ cks, l.mapM (V.chunkOf s d) = some cks ∧ (l.zip cks).map Prod.fst = l ∧
      ∀ r ∈ l.zip cks, Refers V s r.1 r.2 := by
  induction l with
  | nil => exact ⟨[], rfl, rfl, fun _ member => absurd member List.not_mem_nil⟩
  | cons h l ih =>
    obtain ⟨⟨c, refers⟩, later⟩ := List.forall_mem_cons.mp all
    obtain ⟨cks, found, firsts, every⟩ := ih later
    refine ⟨c :: cks, ?_, by rw [List.zip_cons_cons, List.map_cons, firsts], ?_⟩
    · rw [List.mapM_cons, refers.chunkOf d, found]
      rfl
    · rw [List.zip_cons_cons]
      exact List.forall_mem_cons.mpr ⟨refers, every⟩

theorem covers_pieceWrite {n : Nat} {r : HashLocPair × Bytes} (fits : Fits n r) (x : Int) :
    (pieceWrite r).covers x = r.1.covers x := by
  have wide := length_bytesOf fits.offset fits.nlen fits.inside
  rw [Write.covers, HashLocPair.covers, pieceWrite]
  dsimp only
  rw [wide]

theorem fits_of_entry {chunkLength : Int} (wf : ar.WellFormed chunkLength) {k : Int} {r : HashLocPair × Bytes}
    (stored : ar.entry k = some r.1) (refers : Refers V s r.1 r.2) : Fits chunkLength.toNat r := by
  have start := wf.extents.start stored
  have filled := wf.extents.filled stored
  have inside := wf.extents.inside stored
  have pos := wf.extents.keyed stored
  exact ⟨by omega, by omega, by omega, refers.low, refers.inside⟩

theorem overlay_pieces (wf : ar.WellFormed V.config.chunkLength) {parts : List (HashLocPair × Bytes)}
    (firsts : parts.map Prod.fst = ar.values) (every : ∀ r ∈ parts, Refers V s r.1 r.2) :
    overlay (byteAt (List.replicate V.config.chunkLength.toNat 0)) (parts.map pieceWrite) = chunkBytes V s d ar := by
  have entries : ∀ r ∈ parts, ∃ k, ar.entry k = some r.1 := fun r member =>
    Fingers.mem_values.mp (firsts ▸ List.mem_map_of_mem member)
  have covers : ∀ r ∈ parts, ∀ x, (pieceWrite r).covers x = r.1.covers x := by
    intro r member
    obtain ⟨k, stored⟩ := entries r member
    exact covers_pieceWrite (fits_of_entry wf stored (every r member))
  funext x
  cases denoted : ar.denotes x with
  | none =>
    have outside : ∀ wr ∈ parts.map pieceWrite, wr.covers x = false := by
      intro wr member
      obtain ⟨r, listed, rfl⟩ := List.mem_map.mp member
      obtain ⟨k, stored⟩ := entries r listed
      rw [covers r listed, Bool.eq_false_iff]
      intro covered
      rw [(wf.denotes_iff x _).mpr ⟨k, r.1, stored, covered, rfl⟩] at denoted
      cases denoted
    rw [overlay, latest_of_outside outside, byteAt_replicate, chunkBytes, contents_of_blank denoted]
    refine if_congr ?_ rfl rfl
    omega
  | some q =>
    obtain ⟨k, h, stored, covered, rfl⟩ := (wf.denotes_iff x q).mp denoted
    obtain ⟨r, listed, rfl⟩ := List.mem_map.mp (firsts.symm ▸ Fingers.mem_values.mpr ⟨k, stored⟩)
    have there := (covers r listed x).trans covered
    have agree : ∀ wr ∈ parts.map pieceWrite, wr.covers x = true → wr.value x = (pieceWrite r).value x := by
      intro wr member covered'
      obtain ⟨r', listed', rfl⟩ := List.mem_map.mp member
      obtain ⟨k', stored'⟩ := entries r' listed'
      rw [covers r' listed'] at covered'
      have same := wf.extents.covering_unique stored' covered' stored covered
      have chunk := Option.some.inj (((every r' listed').fetched d).symm.trans (same ▸ (every r listed).fetched d))
      rw [Prod.ext same chunk]
    have range : 0 ≤ x ∧ x < V.config.chunkLength := by
      have start := wf.extents.start stored
      have inside := wf.extents.inside stored
      rw [HashLocPair.covers_iff, wf.extents.keyed stored] at covered
      omega
    obtain ⟨v, byte⟩ := (every r listed).byteAt covered
    rw [overlay, latest_of_agree (List.mem_map_of_mem listed) there agree, chunkBytes, if_pos range,
      contents_of_entry wf stored (every r listed) covered, byte, Option.getD_some, ← Write.byteAt_of_covers there, ← byte]
    exact byteAt_bytesOf (every r listed).low covered

open Program

theorem readExtents_gives (cluster : 1 < V.config.maxHashCluster) {w : WritableCacheBuffer σ}
    (wf : w.ar.WellFormed V.config.chunkLength) (all : AllStored V w.store w.ar) :
    ∃ a, (readExtents V).Gives w () { w with hlAdded := false, bar := some a, buf := some .bar } ∧
      a.length = V.config.chunkLength.toNat ∧ byteAt a = chunkBytes V w.store w.direct w.ar := by
  have members : ∀ h ∈ w.ar.values, Stored V w.store h := by
    intro h member
    obtain ⟨k, stored⟩ := Fingers.mem_values.mp member
    exact all k h stored
  have whole : shards w.ar = w.ar.values := by
    rw [shards, List.takeWhile_eq_self_iff]
    intro h member
    obtain ⟨c, refers⟩ := members h member
    exact refers.located
  obtain ⟨cks, found, firsts, every⟩ := chunks_found w.direct members
  have fits : ∀ r ∈ w.ar.values.zip cks, Fits V.config.chunkLength.toNat r := by
    intro r member
    obtain ⟨k, stored⟩ := Fingers.mem_values.mp (firsts ▸ List.mem_map_of_mem member)
    exact fits_of_entry wf stored (every r member)
  obtain ⟨buf, laid, length, bytes⟩ := @layOut_overlay _ _ fits (.allocate V.config.chunkLength.toNat)
    (List.length_replicate ..)
  refine ⟨buf.array, ?_, length, bytes.trans (overlay_pieces wf firsts every)⟩
  rw [readExtents]
  refine gives_modify_bind (gives_get ?_)
  rw [if_pos cluster]
  refine gives_modify_bind ?_
  dsimp only
  rw [whole, found]
  dsimp only
  rw [laid]
  exact gives_modify _ _

end WritableCacheBuffer

end EncryptedDedup.SDFS
