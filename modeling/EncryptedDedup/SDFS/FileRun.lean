import EncryptedDedup.Lib.Chunked
import EncryptedDedup.SDFS.CopyRun
import EncryptedDedup.SDFS.FlushBytes

/-!
# An open file is one array of bytes

The bytes of an open file are in the buffers of its chunks and in the records of its map. Its buffers are written and read
in pieces. At any time one is closed and dropped, and its chunk is loaded again from the record.
-/

namespace EncryptedDedup.SDFS

open Program WritableCacheBuffer

variable {σ : Type} (V : Services σ)

/-- A file whose buffers share a store that counts. -/
structure OpenFile (σ : Type) where
  store : σ × Claims
  file : DestFile (σ × Claims)

namespace OpenFile

def buffer (f : OpenFile σ) (pos : Int) : Except CopyThrown (WritableCacheBuffer (σ × Claims)) :=
  f.file.buffer V.claiming f.store pos

def setBuffer (f : OpenFile σ) (pos : Int) (w : WritableCacheBuffer (σ × Claims)) : OpenFile σ where
  store := w.store
  file := { f.file with writeBuffers := Function.update f.file.writeBuffers pos (some w) }

/-- The cache drops a buffer that is closed, and its record is put into the map. -/
def evict (f : OpenFile σ) (pos : Int) (w : WritableCacheBuffer (σ × Claims)) (r : Option SparseDataChunk) : OpenFile σ where
  store := w.store
  file := { f.file with
    writeBuffers := Function.update f.file.writeBuffers pos none
    bdb := match r with
      | none => f.file.bdb
      | some ck => LongByteArrayMap.step V.config f.file.bdb (.put pos.toNat ck) }

/-- A piece is written or read, or the buffer of a chunk is closed. -/
inductive Event
  | write (p : ChunkPiece)
  | getReadChunk (base start len : Int)
  | close (base : Int)

def onBuffer {α : Type} (f : OpenFile σ) (base : Int) (p : WritableCacheBuffer.Method (σ × Claims) α) : OpenFile σ :=
  match buffer V f base with
  | .error _ => f
  | .ok w =>
    match p w with
    | .finished (w', _) => f.setBuffer base w'
    | _ => f

variable (order : List (Finger × Int) → List (Finger × Int))

def step (f : OpenFile σ) : Event → OpenFile σ
  | .write p => onBuffer V f p.base (WritableCacheBuffer.write V.claiming p.bytes p.start)
  | .getReadChunk base start len => onBuffer V f base (WritableCacheBuffer.getReadChunk V.claiming start len)
  | .close base =>
    match f.file.writeBuffers base with
    | none => f
    | some w =>
      match WritableCacheBuffer.close V f.file.bdb.version order (flush { w with store := f.store }) with
      | .finished (w', .ok r) => f.evict V base w' r
      | _ => f

/-! ### What the file stands for -/

def chunkOf (g : Int → Option UInt8) (base x : Int) : Option UInt8 :=
  if 0 ≤ x ∧ x < V.config.chunkLength then g (base + x) else none

/-- The record has the bytes `c`; without one they are zeros. -/
def RecordShows (s : σ × Claims) (c : Int → Option UInt8) : Option SparseDataChunk → Prop
  | none => c = fun x => if 0 ≤ x ∧ x < V.config.chunkLength then some 0 else none
  | some ck => ck.ar.WellFormed V.config.chunkLength ∧ AllStored V.claiming s ck.ar ∧ ck.ar.AllSized ∧
      ∀ d, contents V.claiming s d ck.ar = c

/-- The buffer has the bytes `c`, and so has the record while nothing has been written. -/
structure Buffered (c : Int → Option UInt8) (r : Option SparseDataChunk) (w : WritableCacheBuffer (σ × Claims)) : Prop where
  carries : Carries V.claiming c w
  clean : w.dirty = false → w.hlAdded = false ∧ RecordShows V w.store c r

/-- The file has the bytes `g`. -/
structure Represents (g : Int → Option UInt8) (f : OpenFile σ) : Prop where
  total : ∀ x, 0 ≤ x → (g x).isSome
  modern : 2 ≤ f.file.bdb.version
  chunks : ∃ slots, LongByteArrayMap.Holds V.config f.file.bdb slots ∧
    ∀ k, 0 ≤ k → V.config.chunkLength ∣ k → ∃ w, buffer V f k = .ok w ∧
      Buffered V (chunkOf V g k) (slots (k.toNat / V.config.chunkLength.toNat)) w

def Event.after (g : Int → Option UInt8) : Event → Int → Option UInt8
  | .write p => written g ⟨p.bytes, p.base + p.start⟩
  | _ => g

/-! ### Runs -/

/-- The bytes of the buffer are not those of a caller. -/
def Own (w : WritableCacheBuffer (σ × Claims)) : Prop := ∀ b, w.buf ≠ some (.given b)

/-- What a call needs. After a write of the whole chunk its buffer has to be closed before the next one. The hashes and
locations of a record have their lengths. -/
def Meets (f : OpenFile σ) : Event → Prop
  | .write p => 0 ≤ p.base ∧ V.config.chunkLength ∣ p.base ∧ ∀ w, buffer V f p.base = .ok w →
      if p.start = 0 ∧ p.bytes.length = V.config.chunkLength then w.accelBuffer = none ∧ w.hlAdded = false
      else 0 ≤ p.start ∧ p.start + p.bytes.length ≤ V.config.chunkLength ∧ Own w ∧ Continues V.claiming w p.start
  | .getReadChunk base start len => 0 ≤ base ∧ V.config.chunkLength ∣ base ∧ InChunk V start len ∧
      ∀ w, buffer V f base = .ok w → Own w ∧ CanRead V.claiming w start len
  | .close base => 0 ≤ base ∧ V.config.chunkLength ∣ base ∧
      (∀ w, buffer V f base = .ok w → Flushable V.claiming w ∧ CanCache V order w) ∧
      ∀ w ck w', buffer V f base = .ok w →
        (WritableCacheBuffer.close V f.file.bdb.version order).Gives (flush w) (some ck) w' →
          ∀ p ∈ ck.ar.values, p.Typed V.config

/-- A write is taken, a read gives the bytes of `g`, and from the map a closed chunk is read with the bytes of `g`. -/
def Right (g : Int → Option UInt8) (f : OpenFile σ) : Event → Prop
  | .write p => ∃ w w', buffer V f p.base = .ok w ∧ (WritableCacheBuffer.write V.claiming p.bytes p.start).Gives w () w'
  | .getReadChunk base start len => ∃ w b w', buffer V f base = .ok w ∧
      (WritableCacheBuffer.getReadChunk V.claiming start len).Gives w b w' ∧ Reads g (base + start) len b
  | .close base => ∀ d x, base ≤ x → x < base + V.config.chunkLength →
      LongByteArrayMap.fileByte V.claiming (step V order f (.close base)).store d
        (step V order f (.close base)).file.bdb x.toNat = g x

/-- The array beside the file. -/
def stepBoth (s : (Int → Option UInt8) × OpenFile σ) (e : Event) : (Int → Option UInt8) × OpenFile σ :=
  (e.after s.1, step V order s.2 e)

end OpenFile

/-! ### Chunks of an array -/

namespace OpenFile

variable {V} {g c : Int → Option UInt8}

theorem chunkOf_written {p : ChunkPiece} (low : 0 ≤ p.start) (fits : p.start + p.bytes.length ≤ V.config.chunkLength) :
    chunkOf V (written g ⟨p.bytes, p.base + p.start⟩) p.base = written (chunkOf V g p.base) ⟨p.bytes, p.start⟩ := by
  funext x
  unfold chunkOf written patch
  by_cases covered : Write.covers ⟨p.bytes, p.start⟩ x = true
  · have range := Write.covers_iff.mp covered
    have there : Write.covers ⟨p.bytes, p.base + p.start⟩ (p.base + x) = true :=
      Write.covers_iff.mpr ⟨by dsimp only at range ⊢; omega, by dsimp only at range ⊢; omega⟩
    dsimp only at range
    rw [if_pos (by omega), if_pos covered, if_pos there, ← Write.byteAt_of_covers covered, ← Write.byteAt_of_covers there]
    congr 1
    dsimp only
    omega
  · have there : ¬ Write.covers ⟨p.bytes, p.base + p.start⟩ (p.base + x) = true := by
      rw [Write.covers_iff] at covered ⊢
      dsimp only at covered ⊢
      omega
    rw [if_neg covered, if_neg there]

theorem chunkOf_written_other {p : ChunkPiece} (low : 0 ≤ p.start) (fits : p.start + p.bytes.length ≤ V.config.chunkLength)
    {k : Int} (aligned : V.config.chunkLength ∣ k) (aligned' : V.config.chunkLength ∣ p.base) (other : k ≠ p.base) :
    chunkOf V (written g ⟨p.bytes, p.base + p.start⟩) k = chunkOf V g k := by
  funext x
  unfold chunkOf
  split
  · rename_i range
    unfold written patch
    rw [if_neg]
    rw [Write.covers_iff]
    dsimp only
    obtain ⟨m, rfl⟩ := aligned
    obtain ⟨n, base⟩ := aligned'
    rw [base] at other ⊢
    intro covered
    have less : V.config.chunkLength * m < V.config.chunkLength * (n + 1) := by
      rw [mul_add, mul_one]
      omega
    have less' : V.config.chunkLength * n < V.config.chunkLength * (m + 1) := by
      rw [mul_add, mul_one]
      omega
    have positive : 0 < V.config.chunkLength := by omega
    have first := Int.lt_of_mul_lt_mul_left less (le_of_lt positive)
    have second := Int.lt_of_mul_lt_mul_left less' (le_of_lt positive)
    exact other (by rw [show m = n by omega])
  · rfl

theorem chunkOf_whole {p : ChunkPiece} (start : p.start = 0) (length : p.bytes.length = V.config.chunkLength) :
    chunkOf V (written g ⟨p.bytes, p.base + p.start⟩) p.base = byteAt p.bytes := by
  rw [chunkOf_written (by omega) (by omega), start]
  funext x
  unfold written patch
  by_cases covered : Write.covers ⟨p.bytes, 0⟩ x = true
  · rw [if_pos covered, ← Write.byteAt_of_covers covered]
    congr 1
    exact sub_zero x
  · rw [if_neg covered]
    rw [Write.covers_iff] at covered
    dsimp only at covered
    unfold chunkOf
    rw [if_neg (by omega), byteAt_eq_none (by omega)]

theorem reads_chunkOf {base start len : Int} {b : Bytes} (range : InChunk V start len)
    (reads : Reads (chunkOf V g base) start len b) : Reads g (base + start) len b := by
  obtain ⟨low, -, upto⟩ := range
  refine ⟨reads.1, fun i from_ less => ?_⟩
  have byte := reads.2 i from_ less
  unfold chunkOf at byte
  rw [if_pos (by omega)] at byte
  rw [byte, add_assoc]

/-! ### Records and buffers -/

variable {s s' : σ × Claims} {r : Option SparseDataChunk} {f : OpenFile σ} {w : WritableCacheBuffer (σ × Claims)}

theorem RecordShows.keeps (shows_ : RecordShows V s c r) (keeps : V.claiming.Keeps s s') : RecordShows V s' c r := by
  cases r with
  | none => exact shows_
  | some ck =>
    obtain ⟨wf, all, sized, same⟩ := shows_
    refine ⟨wf, fun k h stored => ?_, sized, fun d => ?_⟩
    · obtain ⟨b, located, fetched, low, upto, short, blank⟩ := all k h stored
      exact ⟨b, located, fun d => keeps (fetched d), low, upto, short, blank⟩
    · rw [← same d]
      exact (shows_contents (shows_keeps keeps (contents_shows wf all))).symm

theorem Buffered.keeps (buffered : Buffered V c r w) (keeps : V.claiming.Keeps w.store s) :
    Buffered V c r { w with store := s } := by
  refine ⟨buffered.carries.keeps keeps, fun dirty => ?_⟩
  obtain ⟨hlAdded, shows_⟩ := buffered.clean dirty
  exact ⟨hlAdded, shows_.keeps keeps⟩

theorem loaded_buffered (shows_ : RecordShows V s c r) (total : ∀ x, 0 ≤ x → x < V.config.chunkLength → (c x).isSome)
    (d reconstructed : Bool) :
    Buffered V c r { (LongByteArrayMap.marshalWriteBuffer V.claiming s d r).open_ with
      reconstructed := (LongByteArrayMap.marshalWriteBuffer V.claiming s d r).open_.reconstructed || reconstructed } := by
  cases r with
  | none =>
    refine ⟨.array ⟨rfl, rfl, rfl, rfl, rfl, _, rfl, List.length_replicate, ?_⟩ rfl, fun _ => ⟨rfl, shows_⟩⟩
    have zero : c = fun x => if 0 ≤ x ∧ x < V.config.chunkLength then some 0 else none := shows_
    rw [zero]
    funext x
    unfold byteAt
    by_cases low : 0 ≤ x
    · by_cases high : x < V.config.chunkLength
      · rw [if_pos low, if_pos ⟨low, high⟩, List.getElem?_replicate]
        exact if_pos (show x.toNat < V.config.chunkLength.toNat by omega)
      · rw [if_pos low, if_neg (by omega), List.getElem?_replicate]
        exact if_neg (show ¬ x.toNat < V.config.chunkLength.toNat by omega)
    · rw [if_neg low, if_neg (by omega)]
  | some ck =>
    obtain ⟨wf, all, sized, same⟩ := shows_
    have gapless : ck.ar.Gapless V.config.chunkLength := fun x low high => by
      rw [← contents_isSome (d := d) wf all, same]
      exact total x low high
    refine ⟨.extents ⟨⟨⟨rfl, rfl, rfl, wf, all⟩, gapless, ?_, ?_, ?_, ?_⟩, sized, ?_⟩ ?_,
      fun _ => ⟨rfl, wf, all, sized, same⟩⟩
    · intro waits
      cases waits
    · intro r waits
      cases waits
    · intro r waits
      cases waits
    · rw [pending_none (by rfl), overlay_nil]
      exact same d
    · intro added
      cases added
    · intro dirty
      cases dirty

theorem fileByte_of_shows (positive : 0 < V.config.chunkLength) (cluster : 1 < V.config.maxHashCluster)
    {m : LongByteArrayMap} {x : Int} (low : 0 ≤ x)
    (stored : LongByteArrayMap.get V.config m (x / V.config.chunkLength * V.config.chunkLength).toNat = .ok r)
    (shows_ : RecordShows V s c r) (total : ∀ x, 0 ≤ x → x < V.config.chunkLength → (c x).isSome) (d : Bool) :
    LongByteArrayMap.fileByte V.claiming s d m x.toNat = c (x % V.config.chunkLength) := by
  obtain ⟨n, rfl⟩ := Int.eq_ofNat_of_zero_le low
  obtain ⟨L, whole⟩ := Int.eq_ofNat_of_zero_le (le_of_lt positive)
  have low' := Int.emod_nonneg (n : Int) (ne_of_gt positive)
  have high := Int.emod_lt_of_pos (n : Int) positive
  obtain ⟨a, record, same⟩ : ∃ a, LongByteArrayMap.recordBytes V.claiming s d r = some a ∧ byteAt a = c := by
    cases r with
    | none =>
      refine ⟨_, LongByteArrayMap.recordBytes_none, ?_⟩
      have zero : c = fun x => if 0 ≤ x ∧ x < V.config.chunkLength then some 0 else none := shows_
      rw [zero]
      funext x
      unfold byteAt zeros
      by_cases low : 0 ≤ x
      · rw [if_pos low, List.getElem?_replicate]
        refine if_congr ?_ rfl rfl
        change x.toNat < V.config.chunkLength.toNat ↔ _
        omega
      · rw [if_neg low, if_neg (by omega)]
    | some ck =>
      obtain ⟨wf, all, -, bytes⟩ := shows_
      obtain ⟨a, record, same⟩ := @recordBytes_some _ V.claiming s d cluster ck wf all
      refine ⟨a, record, ?_⟩
      have gapless : ck.ar.Gapless V.config.chunkLength := fun x low high => by
        rw [← contents_isSome (d := d) wf all, bytes]
        exact total x low high
      rw [same, @chunkBytes_of_gapless _ V.claiming _ _ _ wf all gapless, bytes]
  rw [← same, byteAt, if_pos low']
  have place : ((n : Int) / (L : Int) * (L : Int)).toNat = n / L * L := by norm_cast
  have within : ((n : Int) % (L : Int)).toNat = n % L := by norm_cast
  rw [whole] at stored ⊢
  rw [place] at stored
  rw [within]
  have length : V.claiming.config.chunkLength = L := whole
  unfold LongByteArrayMap.fileByte
  rw [length]
  dsimp only [Int.ofNat_eq_natCast, Int.toNat_natCast]
  have stored' : LongByteArrayMap.get V.claiming.config m (n / L * L) = .ok r := stored
  rw [stored']
  change (LongByteArrayMap.recordBytes V.claiming s d r).bind (fun b => b[n % L]?) = _
  rw [record]
  rfl

/-- The record that a flush puts is read back with the same bytes. -/
theorem put_shows (usable : V.config.Usable) {m : LongByteArrayMap} {slots : Nat → Option SparseDataChunk}
    (holds : LongByteArrayMap.Holds V.config m slots) (modern : 2 ≤ m.version) {ck : SparseDataChunk}
    (record : RecordOf V.claiming s m.version c ck) (typed : ∀ p ∈ ck.ar.values, p.Typed V.config) (pos : Nat) :
    ∃ ck', (LongByteArrayMap.step V.config m (.put pos ck)).version = m.version ∧
      LongByteArrayMap.Holds V.config (LongByteArrayMap.step V.config m (.put pos ck))
        (Function.update slots (pos / V.config.chunkLength.toNat) (some ck')) ∧
      RecordShows V s c (some ck') := by
  obtain ⟨same, wf₀, all, sized, few, bytes⟩ := record
  have recordable : ck.ar.Recordable V.config := @Fingers.recordable _ V.claiming _ _ wf₀ all sized few typed
  obtain ⟨m', ck', put, version, holds', wf, restores, -⟩ :=
    LongByteArrayMap.put_get usable holds pos same (by rw [same]; exact modern) recordable
  have stepped : LongByteArrayMap.step V.config m (.put pos ck) = m' := by
    unfold LongByteArrayMap.step
    dsimp only
    rw [put]
  rw [stepped]
  refine ⟨ck', version, holds', wf, restores.allStored all, fun k h stored => ?_, fun d => ?_⟩
  · obtain ⟨p, there, rfl⟩ := restores.origin stored
    have filled := sized k p there
    exact filled
  · rw [restores.contents wf₀ wf s d]
    exact bytes d

/-! ### Events -/

theorem store_buffer {k : Int} (here : buffer V f k = .ok w) : w.store = f.store := by
  unfold buffer DestFile.buffer at here
  split at here
  · cases here
    rfl
  · split at here
    · cases here
    · rename_i r _
      cases here
      cases r <;> rfl

theorem buffer_other {j : Int} (here : buffer V f j = .ok w) {f' : OpenFile σ}
    (cached : f'.file.writeBuffers j = f.file.writeBuffers j)
    (record : LongByteArrayMap.get V.config f'.file.bdb j.toNat = LongByteArrayMap.get V.config f.file.bdb j.toNat)
    (direct : f'.file.direct = f.file.direct) (reconstructed : f'.file.reconstructed = f.file.reconstructed) :
    buffer V f' j = .ok { w with store := f'.store } := by
  unfold buffer DestFile.buffer at *
  rw [cached]
  cases there : f.file.writeBuffers j with
  | some v =>
    rw [there] at here
    cases here
    rfl
  | none =>
    rw [there] at here
    dsimp only at *
    have record' : LongByteArrayMap.get V.claiming.config f'.file.bdb j.toNat =
        LongByteArrayMap.get V.claiming.config f.file.bdb j.toNat := record
    rw [record', direct, reconstructed]
    cases got : LongByteArrayMap.get V.claiming.config f.file.bdb j.toNat with
    | error e =>
      rw [got] at here
      cases here
    | ok r =>
      rw [got] at here
      cases here
      cases r <;> rfl

theorem chunk_index (usable : V.config.Usable) {k : Int} (low : 0 ≤ k) (aligned : V.config.chunkLength ∣ k) :
    k.toNat = k.toNat / V.config.chunkLength.toNat * V.config.chunkLength.toNat := by
  have positive := usable.chunk
  obtain ⟨m, rfl⟩ := aligned
  rw [Nat.div_mul_cancel]
  exact (Int.natCast_dvd_natCast).mp (by
    rw [Int.toNat_of_nonneg low, Int.toNat_of_nonneg (le_of_lt positive)]
    exact dvd_mul_right _ _)

theorem chunk_index_ne (usable : V.config.Usable) {k j : Int} (low : 0 ≤ k) (aligned : V.config.chunkLength ∣ k)
    (low' : 0 ≤ j) (aligned' : V.config.chunkLength ∣ j) (other : j ≠ k) :
    j.toNat / V.config.chunkLength.toNat ≠ k.toNat / V.config.chunkLength.toNat := by
  intro same
  have here := chunk_index usable low aligned
  have there := chunk_index usable low' aligned'
  rw [same, ← here] at there
  omega

theorem Represents.setBuffer (represents : Represents V g f) {k : Int} (low : 0 ≤ k)
    (aligned : V.config.chunkLength ∣ k) {w' : WritableCacheBuffer (σ × Claims)} (here : buffer V f k = .ok w)
    (keeps : V.claiming.Keeps w.store w'.store) {g' : Int → Option UInt8}
    (same : ∀ j, V.config.chunkLength ∣ j → j ≠ k → chunkOf V g' j = chunkOf V g j)
    (buffered : ∀ r, Buffered V (chunkOf V g k) r w → Buffered V (chunkOf V g' k) r w')
    (total : ∀ x, 0 ≤ x → (g' x).isSome) : Represents V g' (f.setBuffer k w') := by
  obtain ⟨-, modern, slots, holds, chunks⟩ := represents
  rw [store_buffer here] at keeps
  refine ⟨total, modern, slots, holds, fun j low' aligned' => ?_⟩
  by_cases own : j = k
  · subst own
    obtain ⟨v, there, old⟩ := chunks j low aligned
    rw [here] at there
    obtain rfl := Except.ok.inj there
    refine ⟨w', ?_, buffered _ old⟩
    unfold buffer DestFile.buffer OpenFile.setBuffer
    dsimp only
    rw [Function.update_self]
  · obtain ⟨v, there, old⟩ := chunks j low' aligned'
    have other : buffer V (f.setBuffer k w') j = .ok { v with store := (f.setBuffer k w').store } :=
      buffer_other there (Function.update_of_ne own _ _) rfl rfl rfl
    refine ⟨_, other, ?_⟩
    rw [same j aligned' own]
    exact old.keeps (by rw [store_buffer there]; exact keeps)

theorem Represents.evict (usable : V.config.Usable) (represents : Represents V g f) {k : Int} (low : 0 ≤ k)
    (aligned : V.config.chunkLength ∣ k) {w' : WritableCacheBuffer (σ × Claims)} (keeps : V.claiming.Keeps f.store w'.store)
    {r : Option SparseDataChunk}
    (record : match r with
      | none => ∀ slots, LongByteArrayMap.Holds V.config f.file.bdb slots →
          RecordShows V w'.store (chunkOf V g k) (slots (k.toNat / V.config.chunkLength.toNat))
      | some ck => RecordOf V.claiming w'.store f.file.bdb.version (chunkOf V g k) ck ∧
          ∀ p ∈ ck.ar.values, p.Typed V.config) :
    Represents V g (f.evict V k w' r) ∧
      ∃ slots, LongByteArrayMap.Holds V.config (f.evict V k w' r).file.bdb slots ∧
        RecordShows V w'.store (chunkOf V g k) (slots (k.toNat / V.config.chunkLength.toNat)) := by
  obtain ⟨total, modern, slots, holds, chunks⟩ := represents
  have covered : ∀ x, 0 ≤ x → x < V.config.chunkLength → (chunkOf V g k x).isSome := by
    intro x low' high
    unfold chunkOf
    rw [if_pos ⟨low', high⟩]
    exact total _ (by omega)
  -- The map has a record with these bytes in the slot, and the old ones in the others.
  obtain ⟨slots', version, holds', shows_, others⟩ : ∃ slots', (f.evict V k w' r).file.bdb.version = f.file.bdb.version ∧
      LongByteArrayMap.Holds V.config (f.evict V k w' r).file.bdb slots' ∧
      RecordShows V w'.store (chunkOf V g k) (slots' (k.toNat / V.config.chunkLength.toNat)) ∧
      ∀ i, i ≠ k.toNat / V.config.chunkLength.toNat → slots' i = slots i := by
    cases r with
    | none => exact ⟨slots, rfl, holds, record slots holds, fun i _ => rfl⟩
    | some ck =>
      obtain ⟨ck', version, holds', shows_⟩ := put_shows usable holds modern record.1 record.2 k.toNat
      refine ⟨_, version, holds', ?_, fun i other => Function.update_of_ne other _ _⟩
      rw [Function.update_self]
      exact shows_
  refine ⟨⟨total, by rw [version]; exact modern, slots', holds', fun j low' aligned' => ?_⟩, slots', holds', shows_⟩
  by_cases own : j = k
  · subst own
    have got := LongByteArrayMap.get_slot holds' usable (j.toNat / V.config.chunkLength.toNat)
    rw [← chunk_index usable low aligned] at got
    refine ⟨_, ?_, loaded_buffered shows_ covered f.file.direct f.file.reconstructed⟩
    unfold buffer DestFile.buffer
    have dropped : (f.evict V j w' r).file.writeBuffers j = none := Function.update_self ..
    have got' : LongByteArrayMap.get V.claiming.config (f.evict V j w' r).file.bdb j.toNat = .ok _ := got
    rw [dropped]
    dsimp only
    rw [got']
    rfl
  · obtain ⟨v, there, old⟩ := chunks j low' aligned'
    have index := chunk_index_ne usable low aligned low' aligned' own
    have got := LongByteArrayMap.get_slot holds usable (j.toNat / V.config.chunkLength.toNat)
    have got' := LongByteArrayMap.get_slot holds' usable (j.toNat / V.config.chunkLength.toNat)
    rw [← chunk_index usable low' aligned'] at got got'
    rw [others _ index] at got'
    have other : buffer V (f.evict V k w' r) j = .ok { v with store := (f.evict V k w' r).store } :=
      buffer_other there (Function.update_of_ne own _ _) (by rw [got, got']) rfl rfl
    refine ⟨_, other, ?_⟩
    rw [others _ index]
    exact old.keeps (by rw [store_buffer there]; exact keeps)

section

variable (cuts : V.Cuts) (ideal : V.Ideal) (readable : V.Readable) (cluster : 1 < V.config.maxHashCluster)
  (small : V.config.chunkLength + 1 < 2 ^ 31) (enough : V.config.chunkLength.toNat < V.turns)
  {order : List (Finger × Int) → List (Finger × Int)}

include cuts ideal readable cluster small enough

theorem write_step {p : ChunkPiece} (represents : Represents V g f) (meets : Meets V order f (.write p)) :
    Right V order g f (.write p) ∧ Represents V (Event.after g (.write p)) (step V order f (.write p)) := by
  obtain ⟨low, aligned, can⟩ := meets
  obtain ⟨w, here, buffered⟩ : ∃ w, buffer V f p.base = .ok w ∧ Carries V.claiming (chunkOf V g p.base) w := by
    obtain ⟨-, -, slots, -, chunks⟩ := represents
    obtain ⟨w, here, buffered⟩ := chunks p.base low aligned
    exact ⟨w, here, buffered.carries⟩
  have can' := can w here
  have range : 0 ≤ p.start ∧ p.start + p.bytes.length ≤ V.config.chunkLength := by
    split at can'
    · rename_i whole
      omega
    · exact ⟨can'.1, can'.2.1⟩
  obtain ⟨w', given, carries, follows, dirty⟩ : ∃ w',
      (WritableCacheBuffer.write V.claiming p.bytes p.start).Gives w () w' ∧
        Carries V.claiming (chunkOf V (written g ⟨p.bytes, p.base + p.start⟩) p.base) w' ∧ Follows V.claiming w w' ∧
        w'.dirty = true := by
    split at can'
    · rename_i whole
      rw [chunkOf_whole whole.1 whole.2, whole.1]
      exact buffered.write_whole can'.1 can'.2 whole.2
    · rename_i part
      rw [chunkOf_written range.1 range.2]
      exact @Carries.write _ V.claiming _ _ cuts.claiming ideal.claiming readable.claiming small enough
        cluster buffered can'.2.2.1 ⟨p.bytes, p.start⟩ ⟨range.1, range.2, part⟩ can'.2.2.2
  have next : step V order f (.write p) = f.setBuffer p.base w' := by
    change onBuffer V f p.base _ = _
    unfold onBuffer
    rw [here]
    dsimp only
    rw [given]
  refine ⟨⟨w, w', here, given⟩, ?_⟩
  rw [next]
  refine represents.setBuffer low aligned here follows.keeps
    (fun j aligned' other => chunkOf_written_other range.1 range.2 aligned' aligned other)
    (fun r _ => ⟨carries, fun clean => ?_⟩) fun x low' => ?_
  · rw [dirty] at clean
    cases clean
  · change (written g _ x).isSome
    rw [← overlay_singleton]
    exact overlay_isSome (represents.total x low') _

theorem read_step {base start len : Int} (represents : Represents V g f) (meets : Meets V order f (.getReadChunk base start len)) :
    Right V order g f (.getReadChunk base start len) ∧ Represents V g (step V order f (.getReadChunk base start len)) := by
  obtain ⟨low, aligned, range, can⟩ := meets
  obtain ⟨w, here, buffered⟩ : ∃ w, buffer V f base = .ok w ∧ Carries V.claiming (chunkOf V g base) w := by
    obtain ⟨-, -, slots, -, chunks⟩ := represents
    obtain ⟨w, here, buffered⟩ := chunks base low aligned
    exact ⟨w, here, buffered.carries⟩
  obtain ⟨own, can'⟩ := can w here
  obtain ⟨b, w', given, reads, carries, follows, dirty, added⟩ := @Carries.getReadChunk _ V.claiming _ _ cuts.claiming ideal.claiming
    readable.claiming small enough cluster buffered own _ _ range can'
  have next : step V order f (.getReadChunk base start len) = f.setBuffer base w' := by
    change onBuffer V f base _ = _
    unfold onBuffer
    rw [here]
    dsimp only
    rw [given]
  refine ⟨⟨w, b, w', here, given, reads_chunkOf range reads⟩, ?_⟩
  rw [next]
  refine represents.setBuffer low aligned here follows.keeps (fun _ _ _ => rfl) (fun r old => ⟨carries, fun clean => ?_⟩)
    represents.total
  rw [dirty] at clean
  obtain ⟨hlAdded, shows_⟩ := old.clean clean
  exact ⟨added hlAdded, shows_.keeps follows.keeps⟩

variable (regular : V.Regular) (usable : V.config.Usable) (shuffled : ∀ es, (order es).Perm es)

include regular usable shuffled

theorem close_step {base : Int} (represents : Represents V g f) (meets : Meets V order f (.close base)) :
    Right V order g f (.close base) ∧ Represents V g (step V order f (.close base)) := by
  obtain ⟨low, aligned, can, typed⟩ := meets
  have positive := usable.chunk
  have covered : ∀ x, 0 ≤ x → x < V.config.chunkLength → (chunkOf V g base x).isSome := by
    intro x low' high
    unfold chunkOf
    rw [if_pos ⟨low', high⟩]
    exact represents.total _ (by omega)
  -- What the map has in the slot is what is read.
  have right {f' : OpenFile σ} {slots : Nat → Option SparseDataChunk}
      (holds : LongByteArrayMap.Holds V.config f'.file.bdb slots)
      (shows_ : RecordShows V f'.store (chunkOf V g base) (slots (base.toNat / V.config.chunkLength.toNat))) (d : Bool) (x : Int)
      (from_ : base ≤ x) (before : x < base + V.config.chunkLength) :
      LongByteArrayMap.fileByte V.claiming f'.store d f'.file.bdb x.toNat = g x := by
    have whole := Int.ediv_mul_cancel aligned
    obtain ⟨chunk, offset⟩ := CopyFiles.chunk_eq (x := base) (y := x) positive (by omega) (by omega)
    have start := Int.emod_eq_zero_of_dvd aligned
    have stored := LongByteArrayMap.get_slot holds usable (base.toNat / V.config.chunkLength.toNat)
    have place : (x / V.config.chunkLength * V.config.chunkLength).toNat = base.toNat := by rw [chunk, whole]
    rw [← chunk_index usable low aligned, ← place] at stored
    rw [← place] at shows_
    rw [fileByte_of_shows positive cluster (by omega) stored shows_ covered d, offset]
    unfold chunkOf
    rw [if_pos (by omega)]
    congr 1
    omega
  obtain ⟨w, slots, here, holds, buffered⟩ : ∃ w slots, buffer V f base = .ok w ∧
      LongByteArrayMap.Holds V.config f.file.bdb slots ∧
      Buffered V (chunkOf V g base) (slots (base.toNat / V.config.chunkLength.toNat)) w := by
    obtain ⟨-, -, slots, holds, chunks⟩ := represents
    obtain ⟨w, here, buffered⟩ := chunks base low aligned
    exact ⟨w, slots, here, holds, buffered⟩
  cases cached : f.file.writeBuffers base with
  | none =>
    have next : step V order f (.close base) = f := by
      unfold step
      dsimp only
      rw [cached]
    have clean : w.dirty = false := by
      unfold buffer DestFile.buffer at here
      rw [cached] at here
      dsimp only at here
      split at here
      · cases here
      · rename_i r _
        cases here
        cases r <;> rfl
    obtain ⟨-, shows_⟩ := buffered.clean clean
    rw [store_buffer here] at shows_
    refine ⟨fun d x from_ before => ?_, by rw [next]; exact represents⟩
    rw [next]
    exact right holds shows_ d x from_ before
  | some v =>
    have same : { v with store := f.store } = w := by
      unfold buffer DestFile.buffer at here
      rw [cached] at here
      exact Except.ok.inj here
    have through {w' : WritableCacheBuffer (σ × Claims)} {r : Option SparseDataChunk}
        (given : (WritableCacheBuffer.close V f.file.bdb.version order).Gives (flush w) r w') :
        step V order f (.close base) = f.evict V base w' r := by
      unfold step
      dsimp only
      rw [cached]
      dsimp only
      rw [same, given]
    by_cases changed : w.dirty ∨ w.hlAdded
    · obtain ⟨w', ck, given, keeps, record⟩ := buffered.carries.close cuts ideal readable regular small positive enough
        shuffled (can w here).1 (can w here).2 changed
      rw [store_buffer here] at keeps
      obtain ⟨next, slots', holds', shows_⟩ := represents.evict usable low aligned keeps (r := some ck)
        ⟨record, typed w ck w' here given⟩
      refine ⟨fun d x from_ before => ?_, by rw [through given]; exact next⟩
      rw [through given]
      exact right holds' shows_ d x from_ before
    · obtain ⟨clean, added⟩ := not_or.mp changed
      obtain ⟨-, shows_⟩ := buffered.clean (Bool.eq_false_iff.mpr clean)
      have given : (WritableCacheBuffer.close V f.file.bdb.version order).Gives (flush w) none (flush w) := by
        have closed : flush w = { w with closed := true } := by
          unfold flush
          rw [if_neg (by have open_ := buffered.carries.open_; tauto), if_neg changed]
        have idle : w.flushing = false := by
          have open_ := buffered.carries.open_
          exact Bool.eq_false_iff.mpr fun flushing => open_ (.inr flushing)
        rw [closed]
        unfold WritableCacheBuffer.close
        refine gives_get ?_
        rw [if_neg (by simp [idle])]
        exact gives_pure _ _
      have store : (flush w).store = f.store := by
        rw [← store_buffer here]
        unfold flush
        split_ifs <;> rfl
      have keeps : V.claiming.Keeps f.store (flush w).store := by
        rw [store]
        exact fun found => found
      obtain ⟨next, slots', holds', shows_'⟩ := represents.evict usable low aligned keeps (r := none) fun slots' holds' => by
          have got := LongByteArrayMap.get_slot holds usable (base.toNat / V.config.chunkLength.toNat)
          have got' := LongByteArrayMap.get_slot holds' usable (base.toNat / V.config.chunkLength.toNat)
          rw [got] at got'
          rw [← Except.ok.inj got', store, ← store_buffer here]
          exact shows_
      refine ⟨fun d x from_ before => ?_, by rw [through given]; exact next⟩
      rw [through given]
      exact right holds' shows_' d x from_ before

/-- From a file with the bytes `g` every run is as on the array `g`. -/
theorem runs_as_array {events : List Event} (represents : Represents V g f)
    (meeting : Throughout (stepBoth V order) (fun s e => Meets V order s.2 e) (g, f) events) :
    Throughout (stepBoth V order) (fun s e => Right V order s.1 s.2 e) (g, f) events := by
  refine Throughout.of_invariant (I := fun s => Represents V s.1 s.2) (fun s e represents meets => ?_) represents meeting
  cases e with
  | write p => exact write_step cuts ideal readable cluster small enough represents meets
  | getReadChunk base start len => exact read_step cuts ideal readable cluster small enough represents meets
  | close base => exact close_step cuts ideal readable cluster small enough regular usable shuffled represents meets

end

/-! ### A new file -/

theorem create_represents (usable : V.config.Usable) (s : σ × Claims) {version : UInt8} (modern : 2 ≤ version) (length : Int)
    (closed reconstructed direct : Bool) :
    Represents V (fun _ => some 0) ⟨s, .create version, length, closed, reconstructed, direct, fun _ => none⟩ := by
  have holds := @LongByteArrayMap.holds_create V.config version
  refine ⟨fun _ _ => rfl, modern, _, holds, fun k low aligned => ?_⟩
  have got := holds.get usable k.toNat
  have zeros_ : RecordShows V s (chunkOf V (fun _ => some 0) k) none := rfl
  refine ⟨_, ?_, loaded_buffered zeros_ (fun x low' high => ?_) direct reconstructed⟩
  · unfold buffer DestFile.buffer
    have got' : LongByteArrayMap.get V.claiming.config (.create version) k.toNat = .ok none := got
    dsimp only
    rw [got']
  · unfold chunkOf
    rw [if_pos ⟨low', high⟩]
    rfl

theorem loaded_of_uncached {k : Int} (dropped : f.file.writeBuffers k = none) (here : buffer V f k = .ok w) :
    w.accelBuffer = none ∧ w.hlAdded = false ∧ Own w := by
  unfold buffer DestFile.buffer at here
  rw [dropped] at here
  dsimp only at here
  split at here
  · cases here
  · rename_i r _
    cases here
    cases r <;> exact ⟨rfl, rfl, fun b given => by cases given⟩

def tiny : Services Unit := { sample with config := ⟨4, 16, 4, 3⟩, turns := 5 }

theorem tiny_cuts : tiny.Cuts := ⟨sample_cuts.all, sample_cuts.filled, sample_cuts.len⟩

theorem tiny_ideal : tiny.Ideal := sample_ideal.configured _ _

theorem tiny_regular : tiny.Regular := by
  refine ⟨fun b _ => ?_, fun {b f g} member member' _ => ?_⟩
  · have many : (tiny.getChunks b).length ≤ 1 := by
      change (if b = [] then [] else [(⟨b, sampleHash b, b.length⟩ : Finger)]).length ≤ 1
      split <;> simp
    have room : tiny.config.maxElementsPerAr = 8 := by decide
    omega
  · obtain ⟨-, rfl⟩ := mem_sample_chunks member
    obtain ⟨-, rfl⟩ := mem_sample_chunks member'
    rfl

theorem tiny_usable : tiny.config.Usable := ⟨by decide, by decide, by decide, by decide⟩

theorem tiny_readable : tiny.Readable :=
  ⟨fun wrote => brief_readable.located wrote, fun member blank => brief_readable.blank member blank⟩

def newFile : OpenFile Unit := ⟨((), fun _ => 0), .create 2, 0, false, false, false, fun _ => none⟩

def chunkWritten : OpenFile Unit := step tiny id newFile (.write ⟨0, 0, [97, 98, 99, 100]⟩)

def byteWritten : OpenFile Unit := step tiny id (step tiny id chunkWritten (.close 0)) (.write ⟨0, 1, [120]⟩)

theorem chunkWritten_buffer :
    (buffer tiny chunkWritten 0).map (fun w => (w.accelBuffer, w.array)) = .ok (none, some [97, 98, 99, 100]) := rfl

theorem byteWritten_buffer :
    ((buffer tiny byteWritten 0).toOption.map fun w => (w.accelBuffer, w.hlAdded, w.buf.elim false fun buf =>
      match buf with
      | .bar => true
      | .given _ => false)) = some (none, false, true) := by decide +kernel

theorem runs_as_array_newFile :
    Throughout (stepBoth tiny id) (fun s e => Right tiny id s.1 s.2 e) (fun _ => some 0, newFile)
      [.write ⟨0, 0, [97, 98, 99, 100]⟩, .close 0, .write ⟨0, 1, [120]⟩, .getReadChunk 0 1 2] := by
  have modern : (2 : UInt8) ≤ 2 := by decide
  have kept : ∀ es : List (Finger × Int), (id es).Perm es := fun _ => .refl _
  refine runs_as_array tiny_cuts tiny_ideal tiny_readable (by decide) (by decide) (by decide) tiny_regular tiny_usable
    kept (create_represents tiny_usable _ modern _ _ _ _) ?_
  refine ⟨⟨by decide, by decide, fun w here => ?_⟩, ⟨by decide, by decide, fun w here => ?_, fun w ck w' here given => ?_⟩,
    ⟨by decide, by decide, fun w here => ?_⟩, ⟨by decide, by decide, ⟨by decide, by decide, by decide⟩, fun w here => ?_⟩, trivial⟩
  · obtain ⟨idle, added, -⟩ := loaded_of_uncached rfl here
    rw [if_pos ⟨rfl, rfl⟩]
    exact ⟨idle, added⟩
  · change buffer tiny chunkWritten 0 = .ok w at here
    have held := chunkWritten_buffer
    rw [here] at held
    obtain ⟨idle, array⟩ := Prod.mk.inj (Except.ok.inj held)
    refine ⟨fun r waits => ?_, fun a there => ?_⟩
    · rw [idle] at waits
      cases waits
    · obtain rfl := Option.some.inj (array.symm.trans there)
      rfl
  · obtain ⟨w₀, there, w₁, ck₀, closed, sized⟩ : ∃ w₀, buffer tiny chunkWritten 0 = .ok w₀ ∧
        ∃ w₁ ck₀, (WritableCacheBuffer.close tiny 2 id).Gives (flush w₀) (some ck₀) w₁ ∧
          ∀ p ∈ ck₀.ar.values, p.Typed tiny.config := by
      refine ⟨_, rfl, _, _, rfl, fun p member => ?_⟩
      obtain rfl := List.mem_singleton.mp member
      exact ⟨by decide, by decide, by decide, by decide, by decide, by decide⟩
    obtain rfl := Except.ok.inj (there.symm.trans here)
    obtain ⟨rfl, chunk⟩ := Prod.mk.inj (Outcome.finished.inj (closed.symm.trans given))
    obtain rfl := Option.some.inj (Except.ok.inj chunk)
    exact sized
  · obtain ⟨idle, -, own⟩ := loaded_of_uncached rfl here
    rw [if_neg (by decide)]
    refine ⟨by decide, by decide, own, fun r waits => ?_⟩
    rw [idle] at waits
    cases waits
  · simp only [stepBoth] at here
    change buffer tiny byteWritten 0 = .ok w at here
    have held := byteWritten_buffer
    rw [here] at held
    obtain ⟨idle, rest⟩ := Prod.mk.inj (Option.some.inj held)
    obtain ⟨added, bar⟩ := Prod.mk.inj rest
    refine ⟨fun b given => ?_, ?_⟩
    · rw [given] at bar
      cases bar
    · have none_ : runHas w 1 2 = false := by
        unfold runHas
        rw [idle]
        rfl
      unfold CanRead
      rw [added, none_]
      intro r waits
      rw [idle] at waits
      cases waits

end OpenFile

end EncryptedDedup.SDFS
