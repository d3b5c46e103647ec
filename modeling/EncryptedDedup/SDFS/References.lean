import EncryptedDedup.SDFS.WritableCacheBuffer

/-!
# The references of extents

A flush of a `WritableCacheBuffer` counts the references of its extents to stored chunks, and has them
changed by one call for each chunk.
-/

namespace EncryptedDedup.SDFS

/-- What `equals` of `HashLocPair` compares. -/
def HashLocPair.chunk (h : HashLocPair) : Bytes × Bytes := (h.hash, h.hashloc)

/-- `Longs.fromByteArray(hashloc)`. -/
def HashLocPair.location (h : HashLocPair) : Nat := ofLE (h.hashloc.take 8).reverse

/-- `addRef` and `removeRef` come to `claimKey`. -/
def Services.counts {σ : Type} (V : Services σ) (h : HashLocPair) : Bool :=
  decide (¬ (h.location = 1 ∨ h.location = 0) ∧ h.hash ≠ V.bk)

/-- `HashMap<HashLocPair, Integer>`. -/
abbrev RefCounts : Type := Bytes × Bytes → Option Int

namespace RefCounts

def empty : RefCounts := fun _ => none

/-- The first loop of `setAR` and of `reReference`. -/
def countDown (ct : RefCounts) (h : HashLocPair) : RefCounts :=
  Function.update ct h.chunk (some (match ct h.chunk with
    | some c => c - 1
    | none => -1))

/-- The second loop of `reReference`. -/
def countUp (ct : RefCounts) (h : HashLocPair) : RefCounts :=
  Function.update ct h.chunk (some (match ct h.chunk with
    | some c => if h.inserted then 1 else c + 1
    | none => 1))

/-- How many references the call for a chunk takes away, if there is one. -/
def taken (ct : RefCounts) (k : Bytes × Bytes) : Nat := (-(ct k).getD 0).toNat

end RefCounts

namespace WritableCacheBuffer

variable {σ : Type} (V : Services σ)

def copyValues (w : WritableCacheBuffer σ) : List HashLocPair :=
  match w.arCopy with
  | none => []
  | some tree => tree.entries.map fun e => w.ar.objects e.2

/-- The counts that `setAR` calls `addRef` with. -/
def setAR (w : WritableCacheBuffer σ) : RefCounts := w.ar.values.foldl RefCounts.countDown RefCounts.empty

/-- The counts that `reReference` calls `addRef` with. -/
def reReference (w : WritableCacheBuffer σ) : RefCounts :=
  w.ar.values.foldl RefCounts.countUp (w.copyValues.foldl RefCounts.countDown RefCounts.empty)

/-- A flush comes to the references, with the buffer as `w'`: `flush` has queued it, or an earlier call has, `close`
has written the run that waits, and `writeCache` gets the bytes of the chunk. -/
structure Closes (w w' : WritableCacheBuffer σ) : Prop where
  queued : w.flush.flushing = true
  written : (writeAccelBuffer V).Gives w.flush () w'
  stillOpen : w'.closed = false
  flushed : w'.hlAdded = true ∨ w'.dirty = true ∧ ∃ b w'', (getFlushedBuffer V).Gives w' b w''

/-- The calls of a flush. None are made before it, nor if it fails on its way. -/
inductive FlushCalls (w : WritableCacheBuffer σ) : RefCounts → Prop where
  | idle : FlushCalls w .empty
  | close {w' : WritableCacheBuffer σ} : Closes V w w' → FlushCalls w (if w'.hlAdded then w'.reReference else w'.setAR)

end WritableCacheBuffer

/-! ### Counts -/

def references (k : Bytes × Bytes) (hs : List HashLocPair) : Nat := hs.countP fun h => h.chunk = k

variable {k : Bytes × Bytes}

@[simp] theorem references_nil : references k [] = 0 := rfl

theorem references_cons (h : HashLocPair) (hs : List HashLocPair) :
    references k (h :: hs) = references k hs + if h.chunk = k then 1 else 0 := by
  simp [references, List.countP_cons]

namespace RefCounts

theorem countDown_getD (ct : RefCounts) (h : HashLocPair) :
    (countDown ct h k).getD 0 = (ct k).getD 0 - if h.chunk = k then 1 else 0 := by
  unfold countDown
  by_cases same : h.chunk = k
  · subst same
    cases ct h.chunk <;> simp
  · rw [Function.update_of_ne (Ne.symm same), if_neg same, sub_zero]

theorem foldl_countDown (hs : List HashLocPair) (ct : RefCounts) :
    (hs.foldl countDown ct k).getD 0 = (ct k).getD 0 - references k hs := by
  induction hs generalizing ct with
  | nil => simp
  | cons h hs ih =>
    rw [List.foldl_cons, ih, countDown_getD, references_cons]
    push_cast
    omega

/-- The count of a chunk ends below 0 if it starts further below than the extents come up, and none of them starts it again. -/
theorem foldl_countUp_neg (hs : List HashLocPair) (ct : RefCounts) :
    (hs.foldl countUp ct k).getD 0 < 0 ↔
      (ct k).getD 0 + references k hs < 0 ∧ ∀ h ∈ hs, h.chunk = k → h.inserted = false := by
  induction hs generalizing ct with
  | nil => simp
  | cons h hs ih =>
    rw [List.foldl_cons, ih, references_cons, List.forall_mem_cons]
    unfold countUp
    by_cases same : h.chunk = k
    · subst same
      rw [Function.update_self, if_pos rfl]
      cases counted : ct h.chunk with
      | none =>
        simp only [Option.getD_some, Option.getD_none]
        omega
      | some c =>
        cases again : h.inserted with
        | true => 
          simp
          omega
        | false =>
          simp
          omega
    · rw [Function.update_of_ne (Ne.symm same), if_neg same]
      simp [same]

theorem foldl_countUp {hs : List HashLocPair} (plain : ∀ h ∈ hs, h.inserted = false) (ct : RefCounts) :
    (hs.foldl countUp ct k).getD 0 = (ct k).getD 0 + references k hs := by
  induction hs generalizing ct with
  | nil => simp
  | cons h hs ih =>
    obtain ⟨own, others⟩ := List.forall_mem_cons.mp plain
    rw [List.foldl_cons, ih others, references_cons]
    have up : (countUp ct h k).getD 0 = (ct k).getD 0 + if h.chunk = k then 1 else 0 := by
      unfold countUp
      by_cases same : h.chunk = k
      · subst same
        rw [Function.update_self, own]
        cases ct h.chunk <;> simp
      · rw [Function.update_of_ne (Ne.symm same), if_neg same, add_zero]
    rw [up]
    push_cast
    ring

theorem taken_eq_zero {ct : RefCounts} : ct.taken k = 0 ↔ ¬ (ct k).getD 0 < 0 := by
  unfold taken
  omega

end RefCounts

namespace WritableCacheBuffer

variable {σ : Type} (w : WritableCacheBuffer σ)

/-- The counts of the buffer take no reference to a chunk away: with `hlAdded` the copy does not refer to it more often
than the extents, or one of these is inserted; without it no extent refers to the chunk. -/
def Spares (k : Bytes × Bytes) : Prop :=
  if w.hlAdded = true then
    references k w.copyValues ≤ references k w.ar.values ∨ ∃ h ∈ w.ar.values, h.chunk = k ∧ h.inserted = true
  else ∀ h ∈ w.ar.values, h.chunk ≠ k

theorem taken_setAR : w.setAR.taken k = 0 ↔ ∀ h ∈ w.ar.values, h.chunk ≠ k := by
  have none_left : references k w.ar.values = 0 ↔ ∀ h ∈ w.ar.values, h.chunk ≠ k := by
    simp [references, List.countP_eq_zero]
  rw [RefCounts.taken_eq_zero, setAR, RefCounts.foldl_countDown, ← none_left]
  simp [RefCounts.empty]

theorem taken_reReference :
    w.reReference.taken k = 0 ↔
      references k w.copyValues ≤ references k w.ar.values ∨ ∃ h ∈ w.ar.values, h.chunk = k ∧ h.inserted = true := by
  rw [RefCounts.taken_eq_zero, reReference, RefCounts.foldl_countUp_neg, RefCounts.foldl_countDown]
  simp only [RefCounts.empty, Option.getD_none, not_and_or, not_forall, Bool.not_eq_false]
  constructor
  · rintro (few | ⟨h, member, same, again⟩)
    · exact .inl (by omega)
    · exact .inr ⟨h, member, same, again⟩
  · rintro (few | ⟨h, member, same, again⟩)
    · exact .inl (by omega)
    · exact .inr ⟨h, member, same, again⟩

theorem taken_iff_spares : (if w.hlAdded then w.reReference else w.setAR).taken k = 0 ↔ w.Spares k := by
  unfold Spares
  cases w.hlAdded with
  | true => exact w.taken_reReference
  | false => exact w.taken_setAR

end WritableCacheBuffer

end EncryptedDedup.SDFS
