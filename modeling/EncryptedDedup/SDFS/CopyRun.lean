import EncryptedDedup.Lib.Runs
import EncryptedDedup.SDFS.CopyExtents

/-!
# Runs of copies

While the source is rewritten between them, copies give the destination what the source has at the time of each.
-/

namespace EncryptedDedup.SDFS

open Program WritableCacheBuffer

variable {σ : Type} (V : Services σ)

namespace CopyFiles

def sourceByte (f : CopyFiles σ) (direct : Bool) (p : Int) : Option UInt8 :=
  LongByteArrayMap.fileByte V f.store direct f.sdf.bdb p.toNat

def destByte (f : CopyFiles σ) (p : Int) : Option UInt8 :=
  match buffer V f (p / V.config.chunkLength * V.config.chunkLength) with
  | .ok w => bytes V w (p % V.config.chunkLength)
  | .error _ => none

/-- The position `p` of the source is in an extent of a record whose chunks are all stored. -/
def Covers (f : CopyFiles σ) (p : Int) : Prop :=
  ∃ ck, LongByteArrayMap.get V.config f.sdf.bdb (p / V.config.chunkLength * V.config.chunkLength).toNat = .ok (some ck) ∧
    ck.ar.WellFormed V.config.chunkLength ∧ AllStored V f.store ck.ar ∧ (ck.ar.denotes (p % V.config.chunkLength)).isSome

/-- The record that the source keeps for a position is the one in its map. -/
def Current (f : CopyFiles σ) (pos : Int) : Prop :=
  ∀ pck, f.sdf.pck = some (pos, pck) →
    ∃ ck, LongByteArrayMap.get V.config f.sdf.bdb pos.toNat = .ok (some ck) ∧ ck.ar = pck.ar

def nextExtent (f : CopyFiles σ) (sstart len dstart : Int) : Option HashLocPair :=
  let s := sstart + f.written
  match LongByteArrayMap.get V.config f.sdf.bdb (s / V.config.chunkLength * V.config.chunkLength).toNat with
  | .ok (some ck) =>
    match ck.ar.getWL (s % V.config.chunkLength) with
    | .ok p => some (cutExtent V.config p (len - f.written) ((dstart + f.written) % V.config.chunkLength))
    | .error _ => none
  | _ => none

/-- The buffer that the next turn copies to can take its extent. -/
def CanSplice (f : CopyFiles σ) (sstart len dstart : Int) : Prop :=
  ∀ w, buffer V f ((dstart + f.written) / V.config.chunkLength * V.config.chunkLength) = .ok w → Prepared V w ∧
    ∀ w₁ p, (writeAccelBuffer V).Gives w () w₁ → nextExtent V f sstart len dstart = some p → Spliceable V w₁ p

/-- Every buffer of the destination is sound. -/
def Sound (f : CopyFiles σ) : Prop :=
  ∀ k, 0 ≤ k → V.config.chunkLength ∣ k → ∃ w, buffer V f k = .ok w ∧ Intact V w

inductive Turns (sstart len dstart : Int) (f : CopyFiles σ) : CopyFiles σ → Prop
  | start : Turns sstart len dstart f f
  | turn {g h : CopyFiles σ} : Turns sstart len dstart f g → g.written < len →
    (copyTurn V sstart len dstart).Gives g () h → Turns sstart len dstart f h

def begun (f : CopyFiles σ) : CopyFiles σ := { f with written := 0, ddf := { f.ddf with reconstructed := true } }

def copyLength (f : CopyFiles σ) (len : Int) : Int := if f.sdf.length < len then f.sdf.length else len

/-- What a copy is asked for: some of the source, all of it in extents. -/
structure Asked (f : CopyFiles σ) (sstart len dstart : Int) : Prop where
  from_ : 0 ≤ sstart
  before : sstart < f.sdf.length
  to_ : 0 ≤ dstart
  filled : 0 < len
  covers : ∀ p, sstart ≤ p → p < sstart + min len (f.sdf.length - sstart) → Covers V f p

/-- What a copy needs. It is cut to the length of the source, but not to what is left of it. The kept record is not from
before a write to its chunk, and every extent can be spliced where it comes to. -/
structure Copyable (f : CopyFiles σ) (sstart len dstart : Int) : Prop where
  inside : sstart + f.copyLength len ≤ f.sdf.length
  range : f.sdf.length < 2 ^ 63
  range' : dstart + f.copyLength len < 2 ^ 63
  onTime : f.sdf.toOccured = false
  fine : f.sdf.errOccured = false
  isOpen : f.ddf.closed = false
  current : Current V f (sstart / V.config.chunkLength * V.config.chunkLength)
  splices : ∀ g, Turns V sstart (f.copyLength len) dstart f.begun g → g.written < f.copyLength len →
    CanSplice V g sstart (f.copyLength len) dstart

/-- The destination has the bytes of the source, and is as long as they need. The source is as it was. -/
structure Copied (f f' : CopyFiles σ) (sstart dstart n : Int) : Prop where
  bdb : f'.sdf.bdb = f.sdf.bdb
  sourceLength : f'.sdf.length = f.sdf.length
  bytes : ∀ d p, 0 ≤ p → destByte V f' p =
    if dstart ≤ p ∧ p < dstart + n then sourceByte V f d (sstart + (p - dstart)) else destByte V f p
  length : f'.ddf.length = max f.ddf.length (dstart + n)

/-- A write to the source that is flushed, or a copy. -/
inductive Event (σ : Type)
  | updateMap (filePosition : Nat) (chunk : SparseDataChunk) (length : Int) (store : σ)
  | getResult (sstart len dstart : Int)

def step (f : CopyFiles σ) : Event σ → CopyFiles σ
  | .updateMap filePosition chunk length store =>
    { f with
      store := store
      sdf := { f.sdf with bdb := LongByteArrayMap.step V.config f.sdf.bdb (.put filePosition chunk), length := length } }
  | .getResult sstart len dstart =>
    match getResult V len.toNat sstart len dstart f with
    | .finished (f', _) => f'
    | _ => f

/-- What is promised of an event: a store keeps what it has. -/
def Asks (f : CopyFiles σ) : Event σ → Prop
  | .updateMap _ _ _ store => V.Keeps f.store store
  | .getResult sstart len dstart => Asked V f sstart len dstart

def Meets (f : CopyFiles σ) : Event σ → Prop
  | .updateMap .. => True
  | .getResult sstart len dstart => Copyable V f sstart len dstart

/-- A copy ends, and has copied what the source has then. -/
def Right (f : CopyFiles σ) : Event σ → Prop
  | .updateMap .. => True
  | .getResult sstart len dstart => ∀ turns, len.toNat ≤ turns → ∃ f',
    (getResult V turns sstart len dstart).Gives f (min len (f.sdf.length - sstart)) f' ∧
      Copied V f f' sstart dstart (min len (f.sdf.length - sstart))

end CopyFiles

/-! ### Positions -/

theorem Config.chuckPosition_eq {K : Config} (positive : 0 < K.chunkLength) {x : Int} (low : 0 ≤ x) (high : x < 2 ^ 63) :
    K.chuckPosition x = x / K.chunkLength * K.chunkLength := by
  have start := Int.ediv_mul_le x (ne_of_gt positive)
  have whole : 0 ≤ x / K.chunkLength := Int.ediv_nonneg low (le_of_lt positive)
  have less : x / K.chunkLength ≤ x / K.chunkLength * K.chunkLength := le_mul_of_one_le_right whole positive
  have inner : long (x / K.chunkLength) = x / K.chunkLength := long_eq (by omega) (by omega)
  unfold Config.chuckPosition
  rw [Int.tdiv_eq_ediv_of_nonneg low, inner, long_eq (by omega) (by omega)]

theorem Config.chuckPosition_chuckPosition {K : Config} (positive : 0 < K.chunkLength) {x : Int} (low : 0 ≤ x)
    (high : x < 2 ^ 63) :
    K.chuckPosition (x / K.chunkLength * K.chunkLength) = x / K.chunkLength * K.chunkLength := by
  have start := Int.ediv_mul_le x (ne_of_gt positive)
  have whole := Int.mul_nonneg (Int.ediv_nonneg low (le_of_lt positive)) (le_of_lt positive)
  rw [Config.chuckPosition_eq positive whole (by omega), Int.mul_ediv_cancel _ (ne_of_gt positive)]

theorem Config.offset_eq {K : Config} (positive : 0 < K.chunkLength) (small : K.chunkLength < 2 ^ 30) (x : Int) :
    int (x - x / K.chunkLength * K.chunkLength) = x % K.chunkLength := by
  have low := Int.emod_nonneg x (ne_of_gt positive)
  have high := Int.emod_lt_of_pos x positive
  have rest : x - x / K.chunkLength * K.chunkLength = x % K.chunkLength := by
    have whole := Int.ediv_mul_add_emod x K.chunkLength
    omega
  rw [rest]
  exact int_eq (by omega) (by omega)

/-! ### The source -/

variable {V} {s : σ} {ar : Fingers} {d : Bool}

theorem getWL_stored (small : V.config.chunkLength < 2 ^ 31) (wf : ar.WellFormed V.config.chunkLength)
    (all : AllStored V s ar) {x : Int} (denoted : (ar.denotes x).isSome) :
    ∃ q b, ar.getWL x = .ok q ∧ q.pos = x ∧ 0 < q.nlen ∧ x + q.nlen ≤ V.config.chunkLength ∧ Refers V s q b ∧
      ∀ d y, x ≤ y → y < x + q.nlen → contents V s d ar y = byteAt b (q.offset + (y - x)) := by
  obtain ⟨piece, there⟩ := Option.isSome_iff_exists.mp denoted
  obtain ⟨k, h, stored, covered, -⟩ := (wf.denotes_iff x piece).mp there
  obtain ⟨r, found, rfl⟩ := Fingers.get_of_entry stored
  have pos := wf.extents.keyed stored
  rw [HashLocPair.covers_iff] at covered
  obtain ⟨b, located, fetched, low, inside, short, blank⟩ := all k _ stored
  have room := wf.extents.inside stored
  have from_ := wf.extents.start stored
  have floor : ar.tree.floorEntry x = some (k, r) := by
    refine OrderedMap.floorEntry_of_greatest found (by omega) fun j i known below => ?_
    by_contra above
    have apart := wf.extents.disjoint stored (Fingers.entry_of_get known) (by omega)
    omega
  have offset : int ((ar.objects r).offset + (x - (ar.objects r).pos)) = (ar.objects r).offset + (x - (ar.objects r).pos) :=
    int_eq (by omega) (by omega)
  refine ⟨{ (ar.objects r).clone with
    offset := int ((ar.objects r).offset + (x - (ar.objects r).pos))
    nlen := (ar.objects r).nlen - (x - (ar.objects r).pos)
    pos := x }, b, ?_, rfl, ?_, ?_, ⟨located, fetched, ?_, ?_, short, blank⟩, fun d y after before => ?_⟩
  · unfold Fingers.getWL
    rw [floor]
    dsimp only
    rw [wf.ep_eq small stored, if_pos (by omega)]
  · dsimp only [HashLocPair.clone]
    omega
  · dsimp only [HashLocPair.clone]
    omega
  · dsimp only [HashLocPair.clone]
    omega
  · dsimp only [HashLocPair.clone]
    omega
  · dsimp only [HashLocPair.clone] at before ⊢
    have refers : Refers V s (ar.objects r) b := ⟨located, fetched, low, inside, short, blank⟩
    rw [contents_of_entry wf stored refers (HashLocPair.covers_iff.mpr (by omega)), offset]
    congr 1
    omega

theorem recordBytes_some (cluster : 1 < V.config.maxHashCluster) {ck : SparseDataChunk}
    (wf : ck.ar.WellFormed V.config.chunkLength) (all : AllStored V s ck.ar) :
    ∃ a, LongByteArrayMap.recordBytes V s d (some ck) = some a ∧ byteAt a = chunkBytes V s d ck.ar := by
  have idle : (LongByteArrayMap.marshalWriteBuffer V s d (some ck)).open_.accelBuffer = none := rfl
  obtain ⟨a, given, inArray⟩ := initBuffer_reads cluster (writeAccelBufferIn_none idle V.stack)
    ⟨rfl, rfl, rfl, wf, all⟩ idle
  obtain ⟨a', there, -, same⟩ := inArray.bar
  cases Option.some.inj there
  refine ⟨a, ?_, same⟩
  unfold LongByteArrayMap.recordBytes
  rw [given]
  rfl

namespace CopyFiles

variable {f g : CopyFiles σ}

theorem sourceByte_eq (positive : 0 < V.config.chunkLength) (cluster : 1 < V.config.maxHashCluster) {p : Int} (low : 0 ≤ p)
    {ck : SparseDataChunk}
    (stored : LongByteArrayMap.get V.config f.sdf.bdb (p / V.config.chunkLength * V.config.chunkLength).toNat = .ok (some ck))
    (wf : ck.ar.WellFormed V.config.chunkLength) (all : AllStored V f.store ck.ar)
    (denoted : (ck.ar.denotes (p % V.config.chunkLength)).isSome) :
    sourceByte V f d p = contents V f.store d ck.ar (p % V.config.chunkLength) := by
  obtain ⟨n, rfl⟩ := Int.eq_ofNat_of_zero_le low
  obtain ⟨c, whole⟩ := Int.eq_ofNat_of_zero_le (le_of_lt positive)
  obtain ⟨a, record, same⟩ := @recordBytes_some _ V f.store d cluster ck wf all
  have low' := Int.emod_nonneg (n : Int) (ne_of_gt positive)
  have high := Int.emod_lt_of_pos (n : Int) positive
  rw [← contents_isSome (d := d) wf all] at denoted
  obtain ⟨v, byte⟩ := Option.isSome_iff_exists.mp denoted
  have read := congrFun same ((n : Int) % V.config.chunkLength)
  rw [chunkBytes, if_pos ⟨low', high⟩, byte, Option.getD_some, byteAt, if_pos low', whole] at read
  rw [byte, sourceByte, LongByteArrayMap.fileByte]
  rw [whole] at stored ⊢
  have place : ((n : Int) / (c : Int) * (c : Int)).toNat = n / c * c := by norm_cast
  have within : ((n : Int) % (c : Int)).toNat = n % c := by norm_cast
  rw [place] at stored
  rw [within] at read
  dsimp only [Int.ofNat_eq_natCast, Int.toNat_natCast]
  rw [stored]
  change (LongByteArrayMap.recordBytes V f.store d (some ck)).bind (fun b => b[n % c]?) = _
  rw [record]
  exact read

/-! ### Calls on the files -/

theorem onSource_gives {α : Type} {p : SourceFile.Method α} {a : α} {sdf : SourceFile} (given : p.Gives f.sdf a sdf) :
    (onSource p : Method σ α).Gives f a { f with sdf := sdf } := by
  change onSource p f = _
  unfold onSource
  rw [given]

theorem onBuffer_gives {pos : Int} {w w' : WritableCacheBuffer σ} {p : WritableCacheBuffer.Method σ Unit}
    (here : buffer V f pos = .ok w) (given : p.Gives w () w') : (onBuffer V pos p).Gives f () (f.setBuffer pos w') := by
  change onBuffer V pos p f = _
  unfold onBuffer
  rw [here]
  dsimp only
  rw [given]
  rfl

theorem buffer_setBuffer (f : CopyFiles σ) (pos : Int) (w : WritableCacheBuffer σ) (k : Int) :
    buffer V (f.setBuffer pos w) k =
      if k = pos then .ok w else (buffer V f k).map fun v => { v with store := w.store } := by
  unfold buffer DestFile.buffer setBuffer
  dsimp only
  by_cases same : k = pos
  · rw [if_pos same, same, Function.update_self]
  · rw [if_neg same, Function.update_of_ne same]
    cases f.ddf.writeBuffers k with
    | some v => rfl
    | none =>
      dsimp only
      cases LongByteArrayMap.get V.config f.ddf.bdb k.toNat with
      | error e => rfl
      | ok r => cases r <;> rfl

theorem store_buffer {pos : Int} {w : WritableCacheBuffer σ} (there : buffer V f pos = .ok w) : w.store = f.store := by
  unfold buffer DestFile.buffer at there
  split at there
  · cases there
    rfl
  · split at there
    · cases there
    · rename_i r _
      cases there
      cases r <;> rfl

theorem Sound.setBuffer (sound : Sound V f) {pos : Int} {w : WritableCacheBuffer σ} (intact : Intact V w)
    (keeps : V.Keeps f.store w.store) : Sound V (f.setBuffer pos w) := by
  intro k low aligned
  rw [buffer_setBuffer]
  split
  · exact ⟨w, rfl, intact⟩
  · obtain ⟨v, there, intact'⟩ := sound k low aligned
    rw [there]
    exact ⟨_, rfl, (intact'.keeps (by rwa [store_buffer there])).1⟩

theorem destByte_setBuffer (positive : 0 < V.config.chunkLength) (sound : Sound V f) {pos : Int}
    {w : WritableCacheBuffer σ} (keeps : V.Keeps f.store w.store) {p : Int} (low : 0 ≤ p) :
    destByte V (f.setBuffer pos w) p =
      if p / V.config.chunkLength * V.config.chunkLength = pos then bytes V w (p % V.config.chunkLength)
      else destByte V f p := by
  unfold destByte
  rw [buffer_setBuffer]
  by_cases same : p / V.config.chunkLength * V.config.chunkLength = pos
  · rw [if_pos same, if_pos same]
  · rw [if_neg same, if_neg same]
    obtain ⟨v, there, intact⟩ := sound (p / V.config.chunkLength * V.config.chunkLength)
      (Int.mul_nonneg (Int.ediv_nonneg low (le_of_lt positive)) (le_of_lt positive)) (Int.dvd_mul_left _ _)
    rw [there]
    dsimp only [Except.map]
    rw [(intact.keeps (by rwa [store_buffer there])).2]

/-! ### The record of a turn -/

def reading (f : CopyFiles σ) (pos : Int) (sdc : SparseDataChunk) : CopyFiles σ :=
  { f with sdf := { f.sdf with closed := false, pck := some (pos, sdc) } }

theorem readRecord_gives {sdf : SourceFile} {pos : Int} {ck : SparseDataChunk}
    (stored : LongByteArrayMap.get V.config sdf.bdb pos.toNat = .ok (some ck)) :
    ∃ sdc, (SourceFile.readRecord V.config pos).Gives sdf sdc { sdf with pck := some (pos, sdc) } ∧ sdc.ar = ck.ar := by
  refine ⟨{ ck with len := if sdf.length < long (pos + V.config.chunkLength) then int (sdf.length - pos)
    else V.config.chunkLength }, ?_, rfl⟩
  unfold SourceFile.readRecord
  refine gives_get ?_
  rw [stored]
  exact gives_modify_bind (gives_pure _ _)

theorem getSparseDataChunk_gives {sdf : SourceFile} (isOpen : sdf.closed = false) (onTime : sdf.toOccured = false)
    (fine : sdf.errOccured = false) {pos : Int} (inside : pos ≤ sdf.length) {ck : SparseDataChunk}
    (current : ∀ pck, sdf.pck = some (pos, pck) → pck.ar = ck.ar)
    (stored : LongByteArrayMap.get V.config sdf.bdb pos.toNat = .ok (some ck)) :
    ∃ sdc, (SourceFile.getSparseDataChunk V.config pos).Gives sdf sdc { sdf with pck := some (pos, sdc) } ∧
      sdc.ar = ck.ar := by
  obtain ⟨sdc, given, same⟩ := readRecord_gives stored
  have checks : ¬ sdf.length < pos ∧ ¬ sdf.closed = true ∧ ¬ sdf.toOccured = true ∧ ¬ sdf.errOccured = true :=
    ⟨not_lt.mpr inside, by simp [isOpen], by simp [onTime], by simp [fine]⟩
  obtain ⟨checked₁, checked₂, checked₃, checked₄⟩ := checks
  unfold SourceFile.getSparseDataChunk
  cases cached : sdf.pck with
  | none =>
    refine ⟨sdc, gives_get ?_, same⟩
    rw [if_neg checked₁, if_neg checked₂, if_neg checked₃, if_neg checked₄, cached]
    exact given
  | some e =>
    obtain ⟨fpos, pck⟩ := e
    by_cases here : fpos = pos
    · subst here
      have kept : ({ sdf with pck := some (fpos, pck) } : SourceFile) = sdf := by rw [← cached]
      refine ⟨pck, gives_get ?_, current pck cached⟩
      rw [if_neg checked₁, if_neg checked₂, if_neg checked₃, if_neg checked₄, cached, kept]
      dsimp only
      rw [if_pos rfl]
      exact gives_pure _ _
    · refine ⟨sdc, gives_get ?_, same⟩
      rw [if_neg checked₁, if_neg checked₂, if_neg checked₃, if_neg checked₄, cached]
      dsimp only
      rw [if_neg here]
      exact given

theorem record_gives (onTime : f.sdf.toOccured = false) (fine : f.sdf.errOccured = false) {pos : Int}
    (inside : pos ≤ f.sdf.length) (current : Current V f pos) {ck : SparseDataChunk}
    (stored : LongByteArrayMap.get V.config f.sdf.bdb pos.toNat = .ok (some ck)) :
    ∃ g sdc, (onSource SourceFile.getChannel : Method σ Unit).Gives f () g ∧
      (onSource (SourceFile.getSparseDataChunk V.config pos) : Method σ SparseDataChunk).Gives g sdc (f.reading pos sdc) ∧
      sdc.ar = ck.ar := by
  have opened : SourceFile.getChannel.Gives f.sdf () { f.sdf with closed := false } := by
    unfold SourceFile.getChannel
    refine gives_get ?_
    rw [if_neg (by simp [onTime])]
    exact gives_modify _ _
  obtain ⟨sdc, given, same⟩ := @getSparseDataChunk_gives _ V { f.sdf with closed := false } rfl onTime fine _ inside ck
    (fun pck cached => by
      obtain ⟨ck', there, same⟩ := current pck cached
      rw [stored] at there
      cases there
      exact same.symm) stored
  exact ⟨_, sdc, onSource_gives opened, onSource_gives given, same⟩

/-! ### A turn -/

/-- The extent is cut where the first of the three ends is. -/
theorem cutExtent_spec (small : V.config.chunkLength < 2 ^ 30) {q : HashLocPair} {b : Bytes} (refers : Refers V s q b)
    (filled : 0 < q.nlen) (wide : q.nlen ≤ V.config.chunkLength) {rem pos : Int} (left : 0 < rem) (low : 0 ≤ pos)
    (high : pos < V.config.chunkLength) :
    (cutExtent V.config q rem pos).IsExtent ∧ (cutExtent V.config q rem pos).nlen ≤ rem ∧
      (cutExtent V.config q rem pos).nlen ≤ q.nlen ∧ pos + (cutExtent V.config q rem pos).nlen ≤ V.config.chunkLength ∧
      Refers V s (cutExtent V.config q rem pos) b := by
  obtain ⟨located, fetched, first, last, short, blank⟩ := refers
  have requested : ∃ n, (if rem < q.nlen then int rem else q.nlen) = n ∧ 0 < n ∧ n ≤ rem ∧ n ≤ q.nlen := by
    split
    · exact ⟨rem, int_eq (by omega) (by omega), left, le_refl _, by omega⟩
    · exact ⟨q.nlen, rfl, filled, by omega, le_refl _⟩
  obtain ⟨n, cut, positive, upto, inside⟩ := requested
  have fits : ∃ m, (cutExtent V.config q rem pos).nlen = m ∧ 0 < m ∧ m ≤ n ∧ pos + m ≤ V.config.chunkLength := by
    unfold cutExtent
    dsimp only
    have end_ : int (pos + n) = pos + n := int_eq (by omega) (by omega)
    rw [cut, end_]
    split
    · exact ⟨V.config.chunkLength - pos, int_eq (by omega) (by omega), by omega, by omega, by omega⟩
    · exact ⟨n, rfl, positive, le_refl _, by omega⟩
  obtain ⟨m, nlen, positive', less, room⟩ := fits
  have place : (cutExtent V.config q rem pos).pos = pos := rfl
  have offset : (cutExtent V.config q rem pos).offset = q.offset := rfl
  refine ⟨?_, by omega, by omega, by omega, located, fetched, by omega, by omega, short, blank⟩
  unfold HashLocPair.IsExtent
  omega

theorem setBuffer_setBuffer (f : CopyFiles σ) (pos : Int) (w w' : WritableCacheBuffer σ) :
    (f.setBuffer pos w).setBuffer pos w' = f.setBuffer pos w' := by
  unfold setBuffer
  dsimp only
  rw [Function.update_idem]

def afterTurn (f : CopyFiles σ) (spos dpos : Int) (sdc : SparseDataChunk) (w : WritableCacheBuffer σ) (n : Int) :
    CopyFiles σ :=
  { (f.reading spos sdc).setBuffer dpos w with written := f.written + n }

variable {sstart len dstart : Int}

theorem copyTurn_gives (positive : 0 < V.config.chunkLength) (small : V.config.chunkLength < 2 ^ 30)
    (from_ : 0 ≤ sstart) (to_ : 0 ≤ dstart) (begun : 0 ≤ f.written) (less : f.written < len) (below : sstart + len < 2 ^ 63)
    (below' : dstart + len < 2 ^ 63) (isOpen : f.ddf.closed = false) {sdc : SparseDataChunk} {q : HashLocPair}
    {w w₁ w₂ : WritableCacheBuffer σ}
    (opened : (onSource SourceFile.getChannel : Method σ Unit).Gives f () g)
    (read : (onSource (SourceFile.getSparseDataChunk V.config
      ((sstart + f.written) / V.config.chunkLength * V.config.chunkLength)) : Method σ SparseDataChunk).Gives g sdc
      (f.reading ((sstart + f.written) / V.config.chunkLength * V.config.chunkLength) sdc))
    (here : buffer V f ((dstart + f.written) / V.config.chunkLength * V.config.chunkLength) = .ok w)
    (flushed : (writeAccelBuffer V).Gives w () w₁)
    (found : sdc.ar.getWL ((sstart + f.written) % V.config.chunkLength) = .ok q)
    (copied : (WritableCacheBuffer.copyExtent V
      (cutExtent V.config q (len - f.written) ((dstart + f.written) % V.config.chunkLength))).Gives w₁ () w₂)
    (inside : f.written + (cutExtent V.config q (len - f.written) ((dstart + f.written) % V.config.chunkLength)).nlen ≤ len)
    (more : 0 < (cutExtent V.config q (len - f.written) ((dstart + f.written) % V.config.chunkLength)).nlen) :
    (copyTurn V sstart len dstart).Gives f ()
      (f.afterTurn ((sstart + f.written) / V.config.chunkLength * V.config.chunkLength)
        ((dstart + f.written) / V.config.chunkLength * V.config.chunkLength) sdc w₂
        (cutExtent V.config q (len - f.written) ((dstart + f.written) % V.config.chunkLength)).nlen) := by
  have at_ : long (f.written + sstart) = sstart + f.written := by rw [add_comm]; exact long_eq (by omega) (by omega)
  have at_' : long (f.written + dstart) = dstart + f.written := by rw [add_comm]; exact long_eq (by omega) (by omega)
  have left : long (len - f.written) = len - f.written := long_eq (by omega) (by omega)
  have start := Config.chuckPosition_eq positive (x := sstart + f.written) (by omega) (by omega)
  have start' := Config.chuckPosition_eq positive (x := dstart + f.written) (by omega) (by omega)
  have again := Config.chuckPosition_chuckPosition positive (x := dstart + f.written) (by omega) (by omega)
  have offset := Config.offset_eq positive small (sstart + f.written)
  have offset' := Config.offset_eq positive small (dstart + f.written)
  have wrote : (getWriteBuffer V ((dstart + f.written) / V.config.chunkLength * V.config.chunkLength)).Gives
      (f.reading ((sstart + f.written) / V.config.chunkLength * V.config.chunkLength) sdc) ()
      ((f.reading ((sstart + f.written) / V.config.chunkLength * V.config.chunkLength) sdc).setBuffer
        ((dstart + f.written) / V.config.chunkLength * V.config.chunkLength) w) := by
    unfold getWriteBuffer
    refine gives_get ?_
    rw [if_neg (by simp [reading, isOpen]), again]
    exact onBuffer_gives here (gives_pure () w)
  have cached (f : CopyFiles σ) (k : Int) (v : WritableCacheBuffer σ) : buffer V (f.setBuffer k v) k = .ok v := by
    rw [buffer_setBuffer, if_pos rfl]
  unfold copyTurn
  refine gives_get ?_
  rw [at_, at_', left]
  dsimp only
  rw [start, start', offset, offset']
  refine Gives.bind opened (Gives.bind read (Gives.bind wrote (Gives.bind (onBuffer_gives (cached _ _ _) flushed) ?_)))
  rw [setBuffer_setBuffer, found]
  dsimp only
  refine Gives.bind (onBuffer_gives (cached _ _ _) copied) ?_
  rw [setBuffer_setBuffer]
  have sum : long (f.written + (cutExtent V.config q (len - f.written) ((dstart + f.written) % V.config.chunkLength)).nlen) =
      f.written + (cutExtent V.config q (len - f.written) ((dstart + f.written) % V.config.chunkLength)).nlen :=
    long_eq (by omega) (by omega)
  unfold afterTurn
  rw [← sum]
  exact gives_modify _ _

theorem chunk_eq {c x y : Int} (positive : 0 < c) (from_ : x / c * c ≤ y) (before : y < x / c * c + c) :
    y / c = x / c ∧ y % c = x % c + (y - x) := by
  have same : y / c = x / c := by
    have rest := Int.ediv_mul_add_emod x c
    refine le_antisymm (Int.lt_add_one_iff.mp (Int.ediv_lt_of_lt_mul positive ?_)) (Int.le_ediv_of_mul_le positive from_)
    rw [add_mul, one_mul]
    exact before
  have rest := Int.ediv_mul_add_emod x c
  have rest' := Int.ediv_mul_add_emod y c
  rw [same] at rest'
  exact ⟨same, by omega⟩

theorem sourceByte_extent (positive : 0 < V.config.chunkLength) (small : V.config.chunkLength < 2 ^ 31)
    (cluster : 1 < V.config.maxHashCluster) {x : Int} (low : 0 ≤ x) {ck : SparseDataChunk}
    (stored : LongByteArrayMap.get V.config f.sdf.bdb (x / V.config.chunkLength * V.config.chunkLength).toNat = .ok (some ck))
    (wf : ck.ar.WellFormed V.config.chunkLength) (all : AllStored V f.store ck.ar)
    (denoted : (ck.ar.denotes (x % V.config.chunkLength)).isSome) :
    ∃ q b, ck.ar.getWL (x % V.config.chunkLength) = .ok q ∧ 0 < q.nlen ∧ q.nlen ≤ V.config.chunkLength ∧
      Refers V f.store q b ∧ ∀ d i, 0 ≤ i → i < q.nlen → sourceByte V f d (x + i) = byteAt b (q.offset + i) := by
  have low' := Int.emod_nonneg x (ne_of_gt positive)
  have rest := Int.ediv_mul_add_emod x V.config.chunkLength
  obtain ⟨q, b, found, -, filled, room, refers, same⟩ := getWL_stored small wf all denoted
  refine ⟨q, b, found, filled, by omega, refers, fun d i from_ before => ?_⟩
  obtain ⟨chunk, offset⟩ := chunk_eq (x := x) (y := x + i) positive (by omega) (by omega)
  have byte := same d (x % V.config.chunkLength + i) (by omega) (by omega)
  have shift : x % V.config.chunkLength + i - x % V.config.chunkLength = i := by omega
  have shift' : (x + i) % V.config.chunkLength = x % V.config.chunkLength + i := by omega
  have first := refers.low
  have last := refers.inside
  obtain ⟨v, there⟩ := byteAt_of_lt (a := b) (x := q.offset + i) (by omega) (by omega)
  rw [shift, there] at byte
  have inExtent : (ck.ar.denotes ((x + i) % V.config.chunkLength)).isSome := by
    rw [← contents_isSome (d := d) wf all, shift', byte]
    rfl
  rw [sourceByte_eq positive cluster (by omega) (by rw [chunk]; exact stored) wf all inExtent, shift', byte, there]

theorem destByte_afterTurn (positive : 0 < V.config.chunkLength) (sound : Sound V f) {spos t n : Int} {sdc : SparseDataChunk}
    {w w₂ : WritableCacheBuffer σ} {b : Bytes}
    (here : buffer V f (t / V.config.chunkLength * V.config.chunkLength) = .ok w) (keeps : V.Keeps f.store w₂.store)
    (copied : bytes V w₂ = EncryptedDedup.written (bytes V w) ⟨b, t % V.config.chunkLength⟩) (length : (b.length : Int) = n)
    (room : t % V.config.chunkLength + n ≤ V.config.chunkLength) {p : Int} (low : 0 ≤ p) :
    destByte V (f.afterTurn spos (t / V.config.chunkLength * V.config.chunkLength) sdc w₂ n) p =
      if t ≤ p ∧ p < t + n then byteAt b (p - t) else destByte V f p := by
  have changed : destByte V (f.setBuffer (t / V.config.chunkLength * V.config.chunkLength) w₂) p = _ :=
    destByte_setBuffer positive sound keeps low
  have rest := Int.ediv_mul_add_emod t V.config.chunkLength
  have low' := Int.emod_nonneg t (ne_of_gt positive)
  change destByte V (f.setBuffer (t / V.config.chunkLength * V.config.chunkLength) w₂) p = _
  rw [changed]
  by_cases same : p / V.config.chunkLength * V.config.chunkLength = t / V.config.chunkLength * V.config.chunkLength
  · have rest' := Int.ediv_mul_add_emod p V.config.chunkLength
    have before : destByte V f p = bytes V w (p % V.config.chunkLength) := by
      unfold destByte
      rw [same, here]
    have shift : p % V.config.chunkLength - t % V.config.chunkLength = p - t := by omega
    rw [if_pos same, copied, before]
    by_cases covered : t ≤ p ∧ p < t + n
    · have inside : Write.covers ⟨b, t % V.config.chunkLength⟩ (p % V.config.chunkLength) = true := by
        refine Write.covers_iff.mpr ?_
        dsimp only
        omega
      rw [if_pos covered, EncryptedDedup.written, patch, if_pos inside, ← Write.byteAt_of_covers inside]
      dsimp only
      rw [shift]
    · rw [if_neg covered, EncryptedDedup.written, patch, if_neg]
      rw [Write.covers_iff]
      dsimp only
      omega
  · rw [if_neg same, if_neg]
    rintro ⟨after, before⟩
    obtain ⟨chunk, -⟩ := chunk_eq (x := t) (y := p) positive (by omega) (by omega)
    exact same (by rw [chunk])

/-! ### The mark of the destination -/

theorem buffer_begun {pos : Int} {w : WritableCacheBuffer σ} (here : buffer V f pos = .ok w) :
    ∃ r, buffer V f.begun pos = .ok { w with reconstructed := r } ∧ (w.reconstructed = true → r = true) := by
  unfold buffer DestFile.buffer begun at *
  dsimp only at *
  cases cached : f.ddf.writeBuffers pos with
  | some v =>
    rw [cached] at here
    cases here
    exact ⟨v.reconstructed, rfl, id⟩
  | none =>
    rw [cached] at here
    dsimp only at here
    cases record : LongByteArrayMap.get V.config f.ddf.bdb pos.toNat with
    | error e =>
      rw [record] at here
      cases here
    | ok r =>
      rw [record] at here
      cases here
      refine ⟨true, ?_, fun _ => rfl⟩
      dsimp only
      rw [Bool.or_true]

theorem Sound.begun (positive : 0 < V.config.chunkLength) (sound : Sound V f) :
    Sound V f.begun ∧ ∀ p, 0 ≤ p → destByte V f.begun p = destByte V f p := by
  refine ⟨fun k low aligned => ?_, fun p low => ?_⟩
  · obtain ⟨w, here, intact⟩ := sound k low aligned
    obtain ⟨r, here', marked⟩ := buffer_begun here
    exact ⟨_, here', intact.mark marked⟩
  · obtain ⟨w, here, -⟩ := sound (p / V.config.chunkLength * V.config.chunkLength)
      (Int.mul_nonneg (Int.ediv_nonneg low (le_of_lt positive)) (le_of_lt positive)) (Int.dvd_mul_left _ _)
    obtain ⟨r, here', -⟩ := buffer_begun here
    unfold destByte
    rw [here, here']
    rfl

/-! ### The loop -/

/-- A copy from the files `f₀`, at a turn. -/
structure Copying (V : Services σ) (sstart dstart : Int) (f₀ f : CopyFiles σ) : Prop where
  sound : Sound V f
  keeps : V.Keeps f₀.store f.store
  bdb : f.sdf.bdb = f₀.sdf.bdb
  sourceLength : f.sdf.length = f₀.sdf.length
  onTime : f.sdf.toOccured = false
  fine : f.sdf.errOccured = false
  isOpen : f.ddf.closed = false
  destLength : f.ddf.length = f₀.ddf.length
  begun : 0 ≤ f.written
  current : Current V f ((sstart + f.written) / V.config.chunkLength * V.config.chunkLength)
  copied : ∀ d p, 0 ≤ p → destByte V f p =
    if dstart ≤ p ∧ p < dstart + f.written then sourceByte V f₀ d (sstart + (p - dstart)) else destByte V f₀ p

theorem copyLength_eq (from_ : 0 ≤ sstart) (inside : sstart + f.copyLength len ≤ f.sdf.length) :
    f.copyLength len = min len (f.sdf.length - sstart) := by
  unfold copyLength at *
  split at inside <;> omega

theorem step_gives {n : Int} (given : (getResult V len.toNat sstart len dstart).Gives f n g) :
    step V f (.getResult sstart len dstart) = g := by
  unfold step
  dsimp only
  rw [given]

theorem Sound.updateMap (sound : Sound V f) {store : σ} (keeps : V.Keeps f.store store) (sdf : SourceFile) :
    Sound V { f with store := store, sdf := sdf } := by
  intro k low aligned
  obtain ⟨w, here, intact⟩ := sound k low aligned
  have there : buffer V { f with store := store, sdf := sdf } k = .ok { w with store := store } := by
    unfold buffer DestFile.buffer at *
    dsimp only at *
    cases cached : f.ddf.writeBuffers k with
    | some v =>
      rw [cached] at here
      cases here
      rfl
    | none =>
      rw [cached] at here
      dsimp only at *
      cases record : LongByteArrayMap.get V.config f.ddf.bdb k.toNat with
      | error e =>
        rw [record] at here
        cases here
      | ok r =>
        rw [record] at here
        cases here
        cases r <;> rfl
  exact ⟨_, there, (intact.keeps (by rwa [store_buffer here])).1⟩

section

variable (cuts : V.Cuts) (ideal : V.Ideal) (readable : V.Readable) (cluster : 1 < V.config.maxHashCluster)
  (positive : 0 < V.config.chunkLength) (small : V.config.chunkLength < 2 ^ 30)
  (enough : V.config.chunkLength.toNat ≤ V.turns)

include cuts ideal readable cluster positive small enough

/-- A turn copies the next bytes. -/
theorem Copying.turn {f₀ f : CopyFiles σ} (copying : Copying V sstart dstart f₀ f) (less : f.written < len)
    (from_ : 0 ≤ sstart) (to_ : 0 ≤ dstart) (below : sstart + len ≤ f₀.sdf.length) (below' : sstart + len < 2 ^ 63)
    (below'' : dstart + len < 2 ^ 63) (covers : Covers V f₀ (sstart + f.written)) (can : CanSplice V f sstart len dstart) :
    ∃ f', (copyTurn V sstart len dstart).Gives f () f' ∧ Copying V sstart dstart f₀ f' ∧ f.written < f'.written ∧
      f'.written ≤ len := by
  obtain ⟨sound, keeps, bdb, sourceLength, onTime, fine, isOpen, destLength, begun, current, copied⟩ := copying
  obtain ⟨ck, stored₀, wf, all₀, denoted⟩ := covers
  have all : AllStored V f.store ck.ar := fun k h there => stored_keeps keeps (all₀ k h there)
  have stored := stored₀
  rw [← bdb] at stored
  have startChunk := Int.ediv_mul_le (sstart + f.written) (ne_of_gt positive)
  have low := Int.emod_nonneg (dstart + f.written) (ne_of_gt positive)
  have high := Int.emod_lt_of_pos (dstart + f.written) positive
  obtain ⟨q, b, found, filled, wide, refers₀, same⟩ := @sourceByte_extent _ V f₀ positive (by omega) cluster
    (sstart + f.written) (by omega) ck stored₀ wf all₀ denoted
  obtain ⟨located, fetched, first, last, short, blank⟩ := refers₀
  have refers : Refers V f.store q b := ⟨located, fun d => keeps (fetched d), first, last, short, blank⟩
  obtain ⟨g, sdc, opened, read, extents⟩ := record_gives onTime fine (by omega) current stored
  obtain ⟨w, here, intact⟩ := sound ((dstart + f.written) / V.config.chunkLength * V.config.chunkLength)
    (Int.mul_nonneg (Int.ediv_nonneg (by omega) (le_of_lt positive)) (le_of_lt positive)) (Int.dvd_mul_left _ _)
  obtain ⟨prepared, spliceable⟩ := can w here
  obtain ⟨w₁, flushed, intact₁, idle, own, bytes₁, keeps₁⟩ :=
    intact.flush cuts ideal readable (by omega) enough prepared
  rw [store_buffer here] at keeps₁
  have next : nextExtent V f sstart len dstart =
      some (cutExtent V.config q (len - f.written) ((dstart + f.written) % V.config.chunkLength)) := by
    unfold nextExtent
    dsimp only
    rw [stored]
    dsimp only
    rw [found]
  obtain ⟨extent, requested, inside, room, refers'⟩ :=
    cutExtent_spec small refers filled wide (show 0 < len - f.written by omega) low high
  have refers₁ : Refers V w₁.store (cutExtent V.config q (len - f.written) ((dstart + f.written) % V.config.chunkLength)) b :=
    ⟨refers'.located, fun d => keeps₁ (refers'.fetched d), refers'.low, refers'.inside, refers'.short, refers'.blank⟩
  obtain ⟨w₂, given, intact₂, bytes₂, store₂⟩ := intact₁.copyExtent readable cluster (by omega) enough extent room idle own
    refers₁ (spliceable w₁ _ flushed next)
  have more := extent.2.2.1
  have turn := copyTurn_gives positive small from_ to_ begun less below' below'' isOpen opened read here flushed
    (by rw [extents]; exact found) given (by omega) more
  have keeps₂ : V.Keeps f.store w₂.store := by rw [store₂]; exact keeps₁
  have length := length_bytesOf refers'.low (le_of_lt more) refers'.inside
  have place : (cutExtent V.config q (len - f.written) ((dstart + f.written) % V.config.chunkLength)).pos =
      (dstart + f.written) % V.config.chunkLength := rfl
  have offset : (cutExtent V.config q (len - f.written) ((dstart + f.written) % V.config.chunkLength)).offset = q.offset := rfl
  rw [bytes₁, place] at bytes₂
  generalize cut : cutExtent V.config q (len - f.written) ((dstart + f.written) % V.config.chunkLength) = p at *
  refine ⟨_, turn, ?_, by change f.written < f.written + p.nlen; omega, by change f.written + p.nlen ≤ len; omega⟩
  refine ⟨sound.setBuffer intact₂ keeps₂, fun there => keeps₂ (keeps there), bdb, sourceLength, onTime, fine, isOpen,
    destLength, by change 0 ≤ f.written + p.nlen; omega, ?_, fun d x nonneg => ?_⟩
  · intro pck cached
    have same := (Prod.mk.inj (Option.some.inj cached))
    rw [← same.1, ← same.2]
    exact ⟨ck, stored, extents.symm⟩
  · have after : destByte V (f.afterTurn ((sstart + f.written) / V.config.chunkLength * V.config.chunkLength)
        ((dstart + f.written) / V.config.chunkLength * V.config.chunkLength) sdc w₂ p.nlen) x = _ :=
      destByte_afterTurn positive sound here keeps₂ bytes₂ length room nonneg
    change _ = if dstart ≤ x ∧ x < dstart + (f.written + p.nlen) then _ else _
    rw [after, copied d x nonneg]
    by_cases now : dstart + f.written ≤ x ∧ x < dstart + f.written + p.nlen
    · have covered : p.covers ((dstart + f.written) % V.config.chunkLength + (x - (dstart + f.written))) = true := by
        rw [HashLocPair.covers_iff]
        omega
      have byte := byteAt_bytesOf (c := b) refers'.low covered
      have shift : (dstart + f.written) % V.config.chunkLength + (x - (dstart + f.written)) - p.pos = x - (dstart + f.written) := by
        omega
      have source := same d (x - (dstart + f.written)) (by omega) (by omega)
      have position : sstart + f.written + (x - (dstart + f.written)) = sstart + (x - dstart) := by omega
      rw [shift, offset] at byte
      rw [position] at source
      rw [if_pos now, if_pos (by omega), byte, source]
    · rw [if_neg now]
      refine if_congr ?_ rfl rfl
      omega

theorem Copying.loop {f₀ f : CopyFiles σ} (copying : Copying V sstart dstart f₀ f) (upto : f.written ≤ len)
    (from_ : 0 ≤ sstart) (to_ : 0 ≤ dstart) (below : sstart + len ≤ f₀.sdf.length) (below' : sstart + len < 2 ^ 63)
    (below'' : dstart + len < 2 ^ 63) (covers : ∀ p, sstart ≤ p → p < sstart + len → Covers V f₀ p)
    (can : ∀ g, Turns V sstart len dstart f g → g.written < len → CanSplice V g sstart len dstart) :
    ∃ f', (∀ turns, (len - f.written).toNat ≤ turns → (copyLoop V sstart len dstart turns).Gives f () f') ∧
      Copying V sstart dstart f₀ f' ∧ f'.written = len := by
  induction left : (len - f.written).toNat using Nat.strong_induction_on generalizing f with
  | _ n ih =>
    by_cases less : f.written < len
    · obtain ⟨g, turn, copying', more, upto'⟩ := copying.turn cuts ideal readable cluster positive small enough less from_ to_
        below below' below'' (covers _ (by have := copying.begun; omega) (by omega)) (can f .start less)
      obtain ⟨f', looped, done, all⟩ := ih (len - g.written).toNat (by omega) copying' upto'
        (fun h reached => can h (by
          clear ih
          induction reached with
          | start => exact .turn .start less turn
          | turn _ less' turn' reached => exact .turn reached less' turn')) rfl
      refine ⟨f', fun turns many => ?_, done, all⟩
      obtain ⟨turns, rfl⟩ := Nat.exists_eq_succ_of_ne_zero (show turns ≠ 0 by omega)
      unfold copyLoop
      refine gives_get ?_
      rw [if_pos less]
      exact Gives.bind (Gives.handle turn) (looped turns (by omega))
    · refine ⟨f, fun turns _ => ?_, copying, by omega⟩
      cases turns with
      | zero =>
        change copyLoop V sstart len dstart 0 f = _
        unfold copyLoop
        rw [if_neg less]
      | succ turns =>
        unfold copyLoop
        refine gives_get ?_
        rw [if_neg less]
        exact gives_pure () f

omit cuts ideal readable cluster small enough in
theorem Copying.start (sound : Sound V f) (onTime : f.sdf.toOccured = false) (fine : f.sdf.errOccured = false)
    (isOpen : f.ddf.closed = false) (current : Current V f (sstart / V.config.chunkLength * V.config.chunkLength)) :
    Copying V sstart dstart f.begun f.begun := by
  refine ⟨(sound.begun positive).1, fun found => found, rfl, rfl, onTime, fine, isOpen, rfl, le_refl _, ?_, fun d p _ => ?_⟩
  · have first : sstart + f.begun.written = sstart := add_zero sstart
    rw [first]
    exact current
  · have nothing : dstart + f.begun.written = dstart := add_zero dstart
    rw [nothing, if_neg (by omega)]

theorem getResult_copies (sound : Sound V f) (asked : Asked V f sstart len dstart) (copyable : Copyable V f sstart len dstart) :
    ∃ f', (∀ turns, len.toNat ≤ turns → (getResult V turns sstart len dstart).Gives f (f.copyLength len) f') ∧
      Copied V f f' sstart dstart (f.copyLength len) ∧ Sound V f' := by
  obtain ⟨from_, before, to_, filled, covers⟩ := asked
  obtain ⟨inside, range, range', onTime, fine, isOpen, current, splices⟩ := copyable
  rw [← copyLength_eq from_ inside] at covers
  obtain ⟨-, same⟩ := sound.begun positive
  have short : 0 ≤ f.copyLength len ∧ f.copyLength len ≤ len := by
    unfold copyLength
    split <;> omega
  have start : Copying V sstart dstart f.begun f.begun := Copying.start positive sound onTime fine isOpen current
  obtain ⟨g, looped, done, all⟩ := start.loop cuts ideal readable cluster positive small enough short.1 from_ to_ inside
    (by omega) range' covers splices
  have end_ : long (g.written + dstart) = dstart + f.copyLength len := by
    rw [all, add_comm]
    exact long_eq (by omega) (by omega)
  have old : g.ddf.length = f.ddf.length := done.destLength
  refine ⟨{ g with ddf := { g.ddf with length := max f.ddf.length (dstart + f.copyLength len) } }, fun turns many => ?_,
    ⟨done.bdb, done.sourceLength, fun d p low => ?_, rfl⟩, done.sound⟩
  · have looped' := looped turns (le_trans (by
      have none : f.begun.written = 0 := rfl
      omega) many)
    have lengthened : (setLength dstart : Method σ Unit).Gives g ()
        { g with ddf := { g.ddf with length := max f.ddf.length (dstart + f.copyLength len) } } := by
      change setLength dstart g = _
      unfold setLength Program.modify
      dsimp only
      rw [end_, old]
      split
      · rw [max_eq_right (by omega)]
      · rw [max_eq_left (by omega), ← old]
    unfold getResult
    refine gives_modify_bind (gives_get (Gives.bind (Gives.handle looped') (Gives.bind lengthened (gives_get ?_))))
    rw [← all]
    exact gives_pure _ _
  · have copied := done.copied d p low
    rw [all, same p low] at copied
    exact copied

omit cuts ideal readable cluster positive small enough in
theorem nextExtent_pos {p : HashLocPair} (next : nextExtent V f sstart len dstart = some p) :
    p.pos = (dstart + f.written) % V.config.chunkLength := by
  unfold nextExtent at next
  dsimp only at next
  split at next
  · split at next
    · rw [← Option.some.inj next]
      rfl
    · cases next
  · cases next

theorem Copyable.of_one (sound : Sound V f) (asked : Asked V f sstart 1 dstart) (range : f.sdf.length < 2 ^ 63)
    (range' : dstart + 1 < 2 ^ 63) (onTime : f.sdf.toOccured = false) (fine : f.sdf.errOccured = false)
    (isOpen : f.ddf.closed = false) (current : Current V f (sstart / V.config.chunkLength * V.config.chunkLength))
    (can : CanSplice V f.begun sstart 1 dstart) : Copyable V f sstart 1 dstart := by
  obtain ⟨from_, before, to_, -, covers⟩ := asked
  have one : f.copyLength 1 = 1 := by
    unfold copyLength
    rw [if_neg (by omega)]
  have start : Copying V sstart dstart f.begun f.begun := Copying.start positive sound onTime fine isOpen current
  have none_ : f.begun.written = 0 := rfl
  have length : f.begun.sdf.length = f.sdf.length := rfl
  obtain ⟨f', turn, -, more, -⟩ := start.turn cuts ideal readable cluster positive small enough (show f.begun.written < 1 by omega)
    from_ to_ (by omega) (by omega) range' (covers _ (by omega) (by omega)) can
  have first : ∀ g, Turns V sstart 1 dstart f.begun g → g = f.begun ∨ 1 ≤ g.written := by
    intro g reached
    induction reached with
    | start => exact .inl rfl
    | turn _ less turned ih =>
      rcases ih with rfl | done
      · obtain ⟨-, rfl⟩ := turned.unique turn
        exact .inr (by omega)
      · exact absurd less (not_lt.mpr done)
  refine ⟨by omega, range, by omega, onTime, fine, isOpen, current, ?_⟩
  rw [one]
  intro g reached less
  rcases first g reached with rfl | done
  · exact can
  · exact absurd less (not_lt.mpr done)

end

/-! ### A copy of one byte -/

theorem threeLetters_recordable {h : HashLocPair} (either : h = abc ∨ h = xyz) :
    (threeLetters h).ar.Recordable brief.config := by
  rcases either with rfl | rfl
  all_goals
    refine ⟨?_, fun p member => ?_, fun p member => ?_, by decide⟩
    · refine ((Fingers.empty_wellFormed 16).put (by decide) (by decide) (by decide) ?_).1
      intro _ _ found
      cases found
    · rw [List.mem_singleton.mp member]
      exact ⟨by decide, by decide, by decide, by decide, by decide, by decide⟩
    · rw [List.mem_singleton.mp member]
      decide

theorem threeLetters_stored {h : HashLocPair} (either : h = abc ∨ h = xyz) : AllStored brief () (threeLetters h).ar := by
  intro k h' stored
  have entry : (threeLetters h).ar.entry k = if k = 0 then some h else none :=
    Fingers.entry_put (Fingers.empty_wellFormed 16).allocated 0 k h
  rw [entry] at stored
  split at stored
  · obtain rfl := Option.some.inj stored
    rcases either with rfl | rfl
    · exact ⟨[97, 98, 99], by decide, fun d => sample_fetch (by decide) (sampleHash [97, 98, 99]) d, by decide, by decide,
        by decide, by decide⟩
    · exact ⟨[120, 121, 122], by decide, fun d => sample_fetch (by decide) (sampleHash [120, 121, 122]) d, by decide,
        by decide, by decide, by decide⟩
  · cases stored

theorem threeLetters_denotes {h : HashLocPair} (either : h = abc ∨ h = xyz) : ((threeLetters h).ar.denotes 1).isSome := by
  rcases either with rfl | rfl <;> decide

def newFiles : CopyFiles Unit where
  store := ()
  sdf := ⟨.create 2, 0, true, false, false, none⟩
  ddf := ⟨.create 2, 0, false, false, false, fun _ => none⟩
  written := 0

theorem usable_brief : brief.config.Usable := ⟨by decide, by decide, by decide, by decide⟩

theorem newFiles_buffer (f : CopyFiles Unit) (same : f.ddf = { newFiles.ddf with reconstructed := f.ddf.reconstructed })
    (k : Int) : buffer brief f k = .ok { (ofFile brief () .empty false false).open_ with
      reconstructed := (ofFile brief () .empty false false).open_.reconstructed || f.ddf.reconstructed } := by
  have none_ := (LongByteArrayMap.holds_create 2).get usable_brief k.toNat
  unfold buffer DestFile.buffer
  rw [same]
  dsimp only [newFiles]
  rw [none_]
  rfl

theorem newFiles_sound : Sound brief newFiles := by
  intro k _ _
  exact ⟨_, newFiles_buffer newFiles rfl k, (intact_zeros () false _).1⟩

def filled (m : LongByteArrayMap) : CopyFiles Unit := { newFiles with sdf := { newFiles.sdf with bdb := m, length := 3 } }

theorem filled_splices (m : LongByteArrayMap) : CanSplice brief (filled m).begun 1 1 2 := by
  intro w here
  rw [newFiles_buffer (filled m).begun rfl] at here
  obtain rfl := Except.ok.inj here
  refine ⟨⟨fun r waits => (by cases waits), fun b given => (by cases given)⟩, fun w₁ p flushed _ => ?_⟩
  obtain ⟨-, rfl⟩ := flushed.unique (writeAccelBufferIn_none rfl brief.stack)
  refine .inr (.inr fun k h stored => ?_)
  cases stored

theorem asked_second (f : CopyFiles Unit) {k : Nat} (aligned : 16 ∣ k) (length : (k : Int) + 1 < f.sdf.length) {ck : SparseDataChunk}
    (record : LongByteArrayMap.get brief.config f.sdf.bdb k = .ok (some ck)) (wf : ck.ar.WellFormed 16)
    (all : AllStored brief f.store ck.ar) (denoted : (ck.ar.denotes 1).isSome) : Asked brief f (k + 1) 1 2 where
  from_ := by omega
  before := length
  to_ := by decide
  filled := Int.one_pos
  covers := by
    intro p from_ before
    obtain rfl : p = k + 1 := by omega
    have start : ((k : Int) + 1) / 16 * 16 = k := by omega
    have second : ((k : Int) + 1) % 16 = 1 := by omega
    refine ⟨ck, ?_, wf, all, ?_⟩
    · change LongByteArrayMap.get _ _ (((k : Int) + 1) / 16 * 16).toNat = _
      rw [start]
      exact record
    · change (ck.ar.denotes (((k : Int) + 1) % 16)).isSome
      rw [second]
      exact denoted

theorem filled_sound (m : LongByteArrayMap) : Sound brief (filled m) := fun k _ _ =>
  ⟨_, newFiles_buffer (filled m) rfl k, (intact_zeros () false _).1⟩

theorem filled_copyable {m : LongByteArrayMap} (asked : Asked brief (filled m) 1 1 2) : Copyable brief (filled m) 1 1 2 :=
  Copyable.of_one brief_cuts brief_ideal brief_readable (by decide) (by decide) (by decide) (by decide) (filled_sound m) asked
    (show (3 : Int) < 2 ^ 63 by decide) (by decide) rfl rfl rfl (fun pck kept => (by cases kept)) (filled_splices m)

def putLetters (m : LongByteArrayMap) (pos : Nat) (h : HashLocPair) : LongByteArrayMap :=
  LongByteArrayMap.step brief.config m (.put pos (threeLetters h))

theorem putLetters_holds {m : LongByteArrayMap} {slots : Nat → Option SparseDataChunk}
    (holds : LongByteArrayMap.Holds brief.config m slots) (version : m.version = 2) (pos : Nat) {h : HashLocPair}
    (either : h = abc ∨ h = xyz) :
    ∃ slots' ck, LongByteArrayMap.Holds brief.config (putLetters m pos h) slots' ∧ (putLetters m pos h).version = 2 ∧
      LongByteArrayMap.get brief.config (putLetters m pos h) pos = .ok (some ck) ∧
      ck.ar.WellFormed 16 ∧ AllStored brief () ck.ar ∧ (ck.ar.denotes 1).isSome := by
  obtain ⟨m', ck, put, version', holds', wf, restores, -⟩ := LongByteArrayMap.put_get usable_brief holds pos
    version.symm (show (2 : UInt8) ≤ 2 by decide) (threeLetters_recordable either)
  have stepped : putLetters m pos h = m' := by
    unfold putLetters LongByteArrayMap.step
    dsimp only
    rw [put]
  rw [stepped]
  refine ⟨_, ck, holds', version'.trans version, ?_, wf, restores.allStored (threeLetters_stored either), ?_⟩
  · rw [holds'.get usable_brief]
    exact congrArg Except.ok (Function.update_self ..)
  · rw [restores.denotes (threeLetters_recordable either).wf wf]
    exact threeLetters_denotes either

def copiedOnce : CopyFiles Unit := step brief (filled (putLetters (.create 2) 0 abc)) (.getResult 1 1 2)

def rewritten (pos : Nat) (length : Int) : CopyFiles Unit := step brief copiedOnce (.updateMap pos (threeLetters xyz) length ())

theorem brief_keeps (s s' : Unit) : brief.Keeps s s' := fun found => found

theorem rewritten_asked (pos : Nat) (length : Int) (aligned : 16 ∣ pos) (inside : (pos : Int) + 1 < length) :
    Asked brief (filled (putLetters (.create 2) 0 abc)) 1 1 2 ∧ Sound brief (rewritten pos length) ∧
      Asked brief (rewritten pos length) (pos + 1) 1 2 := by
  obtain ⟨slots, ck, holds, version, record, wf, all, denoted⟩ :=
    putLetters_holds (LongByteArrayMap.holds_create 2) rfl 0 (.inl rfl)
  have asked : Asked brief (filled (putLetters (.create 2) 0 abc)) 1 1 2 :=
    asked_second (filled (putLetters (.create 2) 0 abc)) (dvd_zero 16) (show (0 : Int) + 1 < 3 by decide) record wf all denoted
  obtain ⟨f, given, copied, sound⟩ := getResult_copies brief_cuts brief_ideal brief_readable (by decide) (by decide) (by decide)
    (by decide) (filled_sound _) asked (filled_copyable asked)
  have stepped : copiedOnce = f := step_gives (given _ (le_refl _))
  have same := copied.bdb
  rw [← stepped] at same sound
  obtain ⟨-, ck', -, -, record', wf', all', denoted'⟩ := putLetters_holds holds version pos (.inr rfl)
  have same' : (filled (putLetters (.create 2) 0 abc)).sdf.bdb = putLetters (.create 2) 0 abc := rfl
  rw [← same', ← same] at record'
  exact ⟨asked, sound.updateMap (brief_keeps _ _) _, asked_second (rewritten pos length) aligned inside record' wf' all' denoted'⟩

theorem rewritten_left (pos : Nat) (length : Int) : (rewritten pos length).sdf.toOccured = false ∧
    (rewritten pos length).sdf.errOccured = false ∧ (rewritten pos length).ddf.closed = false ∧
    (rewritten pos length).sdf.pck.map Prod.fst = some 0 := by
  have left : copiedOnce.sdf.toOccured = false ∧ copiedOnce.sdf.errOccured = false ∧ copiedOnce.ddf.closed = false ∧
      copiedOnce.sdf.pck.map Prod.fst = some 0 := by decide +kernel
  unfold rewritten
  generalize copiedOnce = f at left ⊢
  exact left

theorem rewritten_buffer : ((buffer brief (rewritten 16 19).begun 0).toOption.map fun w =>
    (w.accelBuffer, w.buf.isNone, w.ar.tree.entries.map Prod.fst)) = some (none, true, [2]) := by decide +kernel

theorem rewritten_splices : CanSplice brief (rewritten 16 19).begun 17 1 2 := by
  intro w here
  have known := rewritten_buffer
  have place : (2 + (rewritten 16 19).begun.written) / brief.config.chunkLength * brief.config.chunkLength = 0 := rfl
  rw [place] at here
  rw [here] at known
  obtain ⟨idle, rest⟩ := Prod.mk.inj (Option.some.inj known)
  obtain ⟨dropped, keys⟩ := Prod.mk.inj rest
  refine ⟨⟨fun r waits => ?_, fun b given => ?_⟩, fun w₁ p flushed next => .inr (.inr fun k h stored before => ?_)⟩
  · rw [idle] at waits
    cases waits
  · rw [given] at dropped
    cases dropped
  · -- Every extent of the buffer starts where the byte goes to.
    obtain ⟨-, rfl⟩ := flushed.unique (writeAccelBufferIn_none idle brief.stack)
    obtain ⟨r, found, -⟩ := Fingers.get_of_entry stored
    have key := List.mem_map_of_mem (f := Prod.fst) ((OrderedMap.get_eq_some _ _ _).mp found)
    rw [keys, List.mem_singleton] at key
    have second : k = 2 := key
    have pos := nextExtent_pos next
    rw [pos, second] at before
    exact absurd before (by decide)

theorem rewritten_bytes : sourceByte brief (rewritten 0 3) true 1 = some 121 ∧
    destByte brief (step brief (rewritten 0 3) (.getResult 1 1 2)) 2 = some 98 := by decide +kernel

end CopyFiles

end EncryptedDedup.SDFS
