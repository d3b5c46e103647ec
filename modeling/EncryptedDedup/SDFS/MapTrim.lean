import EncryptedDedup.SDFS.MapRun
import EncryptedDedup.SDFS.References

/-!
# Trimmed chunks

`DedupFileChannel.trim` and `SparseDedupFile.trim` only call `trim` of the map. The buffers that the file has
loaded keep the extents of the chunks, and a later flush of them counts these extents again.
-/

namespace EncryptedDedup.SDFS.LongByteArrayMap
open WritableCacheBuffer

variable {σ : Type} (V : Services σ)

def Inside (K : Config) (pos len i : Nat) : Prop :=
  pos ≤ i * K.chunkLength.toNat ∧ (i + 1) * K.chunkLength.toNat ≤ pos + len

/-- The calls of a later flush of the buffer of a chunk, in the state that the flush finds it in. -/
def Later : Option (WritableCacheBuffer σ) → RefCounts → Prop
  | none, ct => ct = .empty
  | some w, ct => FlushCalls V w ct

/-- `trim` frees the chunks in the range and no others, and with the flushes behind it every extent of a freed chunk
loses its reference once. -/
structure Trims (m : LongByteArrayMap) (pos len : Nat) (loaded : Nat → Option (WritableCacheBuffer σ)) : Prop where
  frees : ∀ i, Inside V.config pos len i →
    get V.config (trim V.config m true pos len).1 (i * V.config.chunkLength.toNat) = .ok none
  keeps : ∀ i, ¬ Inside V.config pos len i →
    get V.config (trim V.config m true pos len).1 (i * V.config.chunkLength.toNat) =
      get V.config m (i * V.config.chunkLength.toNat)
  once : ∃ (is : List Nat) (removed : Nat → List HashLocPair),
    is.Nodup ∧ (∀ i, i ∈ is ↔ Inside V.config pos len i) ∧ (trim V.config m true pos len).2 = is.flatMap removed ∧
      ∀ i, Inside V.config pos len i → ∀ ck, get V.config m (i * V.config.chunkLength.toNat) = .ok (some ck) →
        ∀ ct, Later V (loaded i) ct → ∀ p ∈ ck.ar.values, V.counts p = true →
          references p.chunk (removed i) + ct.taken p.chunk = references p.chunk ck.ar.values

/-- No flush of a loaded buffer of a freed chunk takes a reference of an extent of the chunk away. -/
def Spared (m : LongByteArrayMap) (pos len : Nat) (loaded : Nat → Option (WritableCacheBuffer σ)) : Prop :=
  ∀ i, Inside V.config pos len i → ∀ ck, get V.config m (i * V.config.chunkLength.toNat) = .ok (some ck) →
    ∀ w, loaded i = some w → ∀ w', Closes V w w' → ∀ p ∈ ck.ar.values, V.counts p = true → w'.Spares p.chunk

/-! ### The range -/

variable {V} {K : Config} {m : LongByteArrayMap} {slots : Nat → Option SparseDataChunk}

theorem mem_trimmed (usable : K.Usable) {pos len : Nat} (small : pos + len < 2 ^ 53) (i : Nat) :
    ((firstTrimmed K pos).toNat ≤ i ∧ i < (firstTrimmed K pos).toNat + trimmedCount K pos len) ↔ Inside K pos len i := by
  obtain ⟨c, chunk⟩ : ∃ c : Nat, K.chunkLength = c := ⟨_, (Int.toNat_of_nonneg usable.chunk.le).symm⟩
  have positive := usable.chunk
  have narrow := usable.small
  rw [chunk] at positive narrow
  have first : firstTrimmed K pos = ((pos + c - 1) / c : Nat) := by
    unfold firstTrimmed
    rw [chunk, Double.ceil_quotient (by omega) (by omega) positive (by omega), Int.natCast_ediv]
    congr 1
    omega
  have last : ⌊Double.quotient (pos + len) K.chunkLength⌋ = ((pos + len) / c : Nat) := by
    rw [chunk, Double.floor_quotient (by omega) (by omega) positive (by omega)]
    push_cast
    rfl
  have low : (pos + c - 1) / c ≤ i ↔ pos ≤ i * c := by
    rw [← Nat.lt_succ_iff, Nat.div_lt_iff_lt_mul (by omega), Nat.succ_mul]
    omega
  have high : i < (pos + len) / c ↔ (i + 1) * c ≤ pos + len := by
    rw [← Nat.succ_le_iff, Nat.le_div_iff_mul_le (by omega)]
  unfold Inside trimmedCount
  rw [last, first, Int.toNat_natCast, chunk, Int.toNat_natCast, ← low, ← high]
  omega

theorem trimmed_map (holds : Holds K m slots) (usable : K.Usable) {pos len : Nat} (small : pos + len < 2 ^ 53) (i : Nat) :
    (Inside K pos len i → get K (trim K m true pos len).1 (i * K.chunkLength.toNat) = .ok none) ∧
      (¬ Inside K pos len i →
        get K (trim K m true pos len).1 (i * K.chunkLength.toNat) = get K m (i * K.chunkLength.toNat)) := by
  obtain ⟨m', done, -, holds'⟩ := trim_spec holds usable true pos len
  rw [done, get_slot holds' usable, get_slot holds usable, ← mem_trimmed usable small]
  unfold clearedFrom
  constructor
  · intro inside
    rw [if_pos inside]
  · intro outside
    rw [if_neg outside]

/-! ### References -/

theorem trim_removes (holds : Holds K m slots) (usable : K.Usable) (pos len : Nat) :
    (trim K m true pos len).2 =
      (List.range' (firstTrimmed K pos).toNat (trimmedCount K pos len)).flatMap fun i =>
        ((slots i).map fun ck => ck.ar.values).getD [] := by
  obtain ⟨m', done, -⟩ := trim_spec holds usable true pos len
  rw [done]
  rfl

/-- What is removed for a chunk does not depend on the buffers, so its buffer must not take anything away. -/
theorem trims_iff_spared (holds : Holds V.config m slots) (usable : V.config.Usable) {pos len : Nat}
    (small : pos + len < 2 ^ 53) (loaded : Nat → Option (WritableCacheBuffer σ)) :
    Trims V m pos len loaded ↔ Spared V m pos len loaded := by
  constructor
  · rintro ⟨-, -, is, removed, -, -, -, once⟩ i inside ck record w buffer w' closes p member counted
    have quiet : Later V (loaded i) .empty := by
      rw [buffer]
      exact .idle
    have flushed : Later V (loaded i) (if w'.hlAdded then w'.reReference else w'.setAR) := by
      rw [buffer]
      exact .close closes
    have before := once i inside ck record _ quiet p member counted
    have after := once i inside ck record _ flushed p member counted
    have nothing : RefCounts.empty.taken p.chunk = 0 := rfl
    exact w'.taken_iff_spares.mp (by omega)
  · intro spared
    refine ⟨fun i => (trimmed_map holds usable small i).1, fun i => (trimmed_map holds usable small i).2,
      List.range' (firstTrimmed V.config pos).toNat (trimmedCount V.config pos len), _, List.nodup_range',
      fun i => ?_, trim_removes holds usable pos len, ?_⟩
    · rw [List.mem_range'_1]
      exact mem_trimmed usable small i
    · intro i inside ck record ct later p member counted
      have none_taken : ct.taken p.chunk = 0 := by
        cases buffer : loaded i with
        | none =>
          rw [buffer] at later
          rw [show ct = .empty from later]
          rfl
        | some w =>
          rw [buffer] at later
          cases later with
          | idle => rfl
          | close closes => exact (taken_iff_spares _).mpr (spared i inside ck record w buffer _ closes p member counted)
      rw [get_slot holds usable] at record
      rw [none_taken, Except.ok.inj record]
      rfl

theorem trims_iff (usable : V.config.Usable) {version : UInt8} (reached : Reached V.config version m) {pos len : Nat}
    (small : pos + len < 2 ^ 53) (loaded : Nat → Option (WritableCacheBuffer σ)) :
    Trims V m pos len loaded ↔ Spared V m pos len loaded := by
  obtain ⟨-, slots, holds⟩ := reached_holds usable reached
  exact trims_iff_spared holds usable small loaded

def hashing : Services Unit where
  config := ⟨16384, 16, 4, 4095⟩
  getHash _ := List.replicate 16 3
  getChunks b := [⟨b, List.replicate 16 3, b.length⟩]
  writeChunk _ _ _ := some ((), ⟨true, List.replicate 8 4⟩)
  fetchChunk _ _ _ _ := some (zeros 100)
  turns := 1
  stack := 0

def oneChunk : LongByteArrayMap := step hashing.config (create 2) (.put 0 (SparseDataChunk.oneEntry false))

theorem oneChunk_reached : Reached hashing.config 2 oneChunk :=
  .step (.create (by decide)) ⟨rfl, SparseDataChunk.oneEntry_typed false⟩

def loadedBuffer : WritableCacheBuffer Unit :=
  (ofDedupChunk hashing () (SparseDataChunk.oneEntry false).ar false 0 false false).open_

theorem loadedBuffer_clean : loadedBuffer.flush.flushing = false := by decide +kernel

/-- The chunk is trimmed while its buffer is loaded. -/
theorem trims_iff_loadedBuffer : Trims hashing oneChunk 0 16384 fun i => if i = 0 then some loadedBuffer else none := by
  apply (trims_iff usable_small oneChunk_reached (by norm_num) _).mpr
  intro i _ ck _ w loaded w' closes
  obtain ⟨-, clean⟩ := Option.ite_none_right_eq_some.mp loaded
  have queued := closes.queued
  rw [← Option.some.inj clean, loadedBuffer_clean] at queued
  cases queued

def writtenBuffer : WritableCacheBuffer Unit :=
  { loadedBuffer with dirty := true, buf := some (.given (zeros 16384)), bytesWritten := int (0 + (zeros 16384).length) }

theorem loadedBuffer_written : (write hashing (zeros 16384) 0).Gives loadedBuffer () writtenBuffer := by
  have whole : (0 : Int) = 0 ∧ ((zeros 16384).length : Int) = hashing.config.chunkLength :=
    ⟨rfl, by rw [length_zeros]; rfl⟩
  unfold write
  refine Program.gives_get ?_
  rw [if_neg (by decide)]
  have replaced : (writeBytes hashing (zeros 16384) 0).Gives { loadedBuffer with dirty := true } ()
      { loadedBuffer with dirty := true, buf := some (.given (zeros 16384)) } := by
    unfold writeBytes
    refine Program.gives_get ?_
    rw [if_pos whole]
    exact Program.gives_modify _ _
  exact Program.gives_modify_bind (replaced.bind rfl)

/-- The flush of a chunk that was written before it is trimmed takes the reference of its extent away again. -/
theorem writtenChunk_not_trimmed :
    Reached hashing.config 2 oneChunk ∧ (write hashing (zeros 16384) 0).Gives loadedBuffer () writtenBuffer ∧
      ¬ Trims hashing oneChunk 0 16384 fun i => if i = 0 then some writtenBuffer else none := by
  refine ⟨oneChunk_reached, loadedBuffer_written, fun trims => ?_⟩
  obtain ⟨-, slots, holds⟩ := reached_holds usable_small oneChunk_reached
  have spared := (trims_iff_spared holds usable_small (by norm_num) _).mp trims
  have chunks : ((get hashing.config oneChunk 0).toOption.bind id).map (fun ck => ck.ar.values) =
      some (SparseDataChunk.oneEntry false).ar.values := by decide +kernel
  cases record : get hashing.config oneChunk 0 with
  | error e =>
    rw [record] at chunks
    cases chunks
  | ok r =>
    cases r with
    | none =>
      rw [record] at chunks
      cases chunks
    | some ck =>
      rw [record] at chunks
      have extents : ck.ar.values = (SparseDataChunk.oneEntry false).ar.values := Option.some.inj chunks
      have closes : Closes hashing writtenBuffer writtenBuffer.flush :=
        ⟨rfl, rfl, rfl, .inr ⟨rfl, _, _, rfl⟩⟩
      have member := List.mem_cons_self (a := ((SparseDataChunk.oneEntry false).ar.objects 0)) (l := [])
      have spares := spared 0 (by unfold Inside; decide) ck record _ rfl _ closes _ (by rw [extents]; exact member) (by decide)
      exact spares _ member rfl

end EncryptedDedup.SDFS.LongByteArrayMap
