import EncryptedDedup.SDFS.MapTruncate
import EncryptedDedup.SDFS.ReadExtents

/-!
# Putting a record

A record of well-formed extents that is put into a map has the same bytes when it is read again.
-/

namespace EncryptedDedup.SDFS

open SparseDataChunk

variable {K : Config} {ar ar' : Fingers}

/-! ### The extents of a record that was read -/

namespace Fingers

theorem WellFormed.keyed {chunkLength : Int} (wf : ar.WellFormed chunkLength) : Keyed ar := fun _ _ stored => wf.extents.keyed stored

def Restores (ar ar' : Fingers) : Prop := ∀ k, ar'.entry k = (ar.entry k).map HashLocPair.clone

theorem Restores.origin (restores : Restores ar ar') {k : Int} {h : HashLocPair} (stored : ar'.entry k = some h) :
    ∃ p, ar.entry k = some p ∧ h = p.clone := by
  rw [restores, Option.map_eq_some_iff] at stored
  obtain ⟨p, there, rfl⟩ := stored
  exact ⟨p, there, rfl⟩

theorem Restores.wellFormed {chunkLength : Int} (restores : Restores ar ar') (wf : ar.WellFormed chunkLength)
    (allocated : ∀ {k r}, ar'.tree.get k = some r → r < ar'.allocated) : ar'.WellFormed chunkLength := by
  refine ⟨⟨fun {k h} stored => ?_, fun {k h} stored => ?_, fun {k h} stored => ?_, fun {k h} stored => ?_,
    fun {k h k' h'} stored stored' less => ?_⟩, allocated⟩
  · obtain ⟨p, there, rfl⟩ := restores.origin stored
    have keyed := wf.extents.keyed there
    exact keyed
  · obtain ⟨p, there, rfl⟩ := restores.origin stored
    exact wf.extents.start there
  · obtain ⟨p, there, rfl⟩ := restores.origin stored
    have filled := wf.extents.filled there
    exact filled
  · obtain ⟨p, there, rfl⟩ := restores.origin stored
    have inside := wf.extents.inside there
    exact inside
  · obtain ⟨p, there, rfl⟩ := restores.origin stored
    obtain ⟨p', there', rfl⟩ := restores.origin stored'
    have disjoint := wf.extents.disjoint there there' less
    exact disjoint

theorem Restores.denotes {chunkLength : Int} (restores : Restores ar ar') (wf : ar.WellFormed chunkLength)
    (wf' : ar'.WellFormed chunkLength) (x : Int) : ar'.denotes x = ar.denotes x := by
  apply Option.ext
  intro q
  rw [wf.denotes_iff, wf'.denotes_iff]
  constructor
  · rintro ⟨k, h, stored, covered, rfl⟩
    obtain ⟨p, there, rfl⟩ := restores.origin stored
    exact ⟨k, p, there, covered, rfl⟩
  · rintro ⟨k, p, there, covered, rfl⟩
    exact ⟨k, p.clone, by rw [restores, there]; rfl, covered, rfl⟩

theorem Restores.allStored {σ : Type} {V : Services σ} {s : σ} (restores : Restores ar ar') (all : AllStored V s ar) :
    AllStored V s ar' := by
  intro k h stored
  obtain ⟨p, there, rfl⟩ := restores.origin stored
  obtain ⟨c, located, fetched, low, inside, short, blank⟩ := all k p there
  exact ⟨c, located, fetched, low, inside, short, blank⟩

theorem Restores.contents {σ : Type} {V : Services σ} {chunkLength : Int} (restores : Restores ar ar')
    (wf : ar.WellFormed chunkLength) (wf' : ar'.WellFormed chunkLength) (s : σ) (d : Bool) :
    contents V s d ar' = contents V s d ar := by
  funext x
  unfold SDFS.contents
  rw [restores.denotes wf wf']

/-- A well-formed map of extents, with lengths and types that its record can have. -/
structure Recordable (K : Config) (ar : Fingers) : Prop where
  wf : ar.WellFormed K.chunkLength
  typed : ∀ p ∈ ar.values, p.Typed K
  sound : ∀ p ∈ ar.values, ¬ p.Corrupt
  few : ar.size ≤ K.maxElementsPerAr

end Fingers

theorem load_allocated (ps : List HashLocPair) {ar : Fingers} (fresh : ∀ {k r}, ar.tree.get k = some r → r < ar.allocated) :
    ∀ {k r}, (load ar ps).tree.get k = some r → r < (load ar ps).allocated := by
  induction ps generalizing ar with
  | nil => exact fresh
  | cons p ps ih => exact ih (Fingers.allocated_put fresh p.pos p.clone)

/-! ### The slot of the record -/

namespace LongByteArrayMap

variable {m : LongByteArrayMap} {slots : Nat → Option SparseDataChunk}

/-- A record that is put is in its slot, and is read with the same extents. -/
theorem put_get (usable : K.Usable) (holds : Holds K m slots) (pos : Nat) {c : SparseDataChunk} (same : c.version = m.version)
    (modern : 2 ≤ c.version) (recordable : c.ar.Recordable K) :
    ∃ m' ck, put K m pos c = .ok m' ∧ m'.version = m.version ∧
      Holds K m' (Function.update slots (pos / K.chunkLength.toNat) (some ck)) ∧
      ck.ar.WellFormed K.chunkLength ∧ c.ar.Restores ck.ar ∧ ck.flags = c.flags := by
  obtain ⟨wf, typed, sound, few⟩ := recordable
  have fits : Fits K c.ar.size := by
    have lengths := usable.lengths
    have many := usable.maxElementsPerAr
    have wide := Nat.mul_le_mul_right K.bal (show c.ar.size ≤ 2 * K.maxHashCluster by omega)
    rw [Nat.mul_comm K.bal] at lengths
    unfold Fits
    omega
  obtain ⟨raw, ck, done, decodes, entries, flags, -⟩ := restores_of_fits modern typed sound wf.keyed few fits
  obtain ⟨c₁, encoded, -⟩ := getBytes_eq modern typed sound few fits
  have record : chunkRecord K c.flags c.ar.values (int (dupBytes c.ar.values)) = raw := by
    rw [encoded] at done
    exact Except.ok.inj done
  rw [← length_values] at fits
  have loaded : ∀ {k r}, ck.ar.tree.get k = some r → r < ck.ar.allocated := by
    obtain ⟨c₂, decodes', -, -, -, ar⟩ :=
      ofBytes_chunkRecord typed sound fits c.flags (int (dupBytes c.ar.values)) modern
    rw [record, decodes] at decodes'
    rw [Except.ok.inj decodes', ar]
    exact load_allocated _ fun {k r} found => by cases found
  obtain ⟨r, piece⟩ := piece_of_getBytes usable typed done
  have held : r = some ck := by
    cases piece with
    | free =>
      have length := length_chunkRecord typed c.flags (int (dupBytes c.ar.values))
      have header := header_chunkRecord fits c.flags (int (dupBytes c.ar.values))
      rw [record] at header length
      rw [free, length_zeros] at length
      rw [free, ofBE32_zeros (by omega)] at header
      omega
    | stored stored =>
      have decodes' := stored.decodes
      rw [decodes] at decodes'
      rw [Except.ok.inj decodes']
  rw [same, held] at piece
  refine ⟨{ m with db := writeAt m.db (getMapFilePosition K m pos) raw }, ck, ?_, rfl, holds.write piece _,
    Fingers.Restores.wellFormed entries wf loaded, entries, flags⟩
  unfold put
  rw [done]
  rfl

end LongByteArrayMap

end EncryptedDedup.SDFS
