import EncryptedDedup.SDFS.Fingers
import Mathlib.Data.Finset.Card
import Mathlib.Data.Finset.Dedup

/-!
# Well-formed extent maps

The extents of a chunk do not overlap. An insertion that is inside no extent makes room for the new one
and leaves the rest of the chunk as it was.
-/

namespace EncryptedDedup.SDFS

/-- A byte of a stored chunk. -/
structure Piece where
  hash : Bytes
  hashloc : Bytes
  offset : Int
  deriving DecidableEq

def HashLocPair.covers (h : HashLocPair) (x : Int) : Bool := h.pos ≤ x ∧ x < h.pos + h.nlen

theorem HashLocPair.covers_iff {h : HashLocPair} {x : Int} : h.covers x = true ↔ h.pos ≤ x ∧ x < h.pos + h.nlen :=
  decide_eq_true_iff

def HashLocPair.piece (h : HashLocPair) (x : Int) : Piece := ⟨h.hash, h.hashloc, int (h.offset + (x - h.pos))⟩

/-- Every extent is under its position, has bytes, and ends before the next one and within the chunk. -/
structure Extents (chunkLength : Int) (E : Int → Option HashLocPair) : Prop where
  keyed : ∀ {k h}, E k = some h → h.pos = k
  start : ∀ {k h}, E k = some h → 0 ≤ k
  filled : ∀ {k h}, E k = some h → 0 < h.nlen
  inside : ∀ {k h}, E k = some h → k + h.nlen ≤ chunkLength
  disjoint : ∀ {k h k' h'}, E k = some h → E k' = some h' → k < k' → k + h.nlen ≤ k'

theorem Extents.covering_unique {chunkLength : Int} {E : Int → Option HashLocPair} (extents : Extents chunkLength E)
    {k k' x : Int} {h h' : HashLocPair} (stored : E k = some h) (covered : h.covers x = true)
    (stored' : E k' = some h') (covered' : h'.covers x = true) : h = h' := by
  rw [HashLocPair.covers_iff, extents.keyed stored] at covered
  rw [HashLocPair.covers_iff, extents.keyed stored'] at covered'
  rcases lt_trichotomy k k' with before | rfl | after
  · have apart := extents.disjoint stored stored' before
    omega
  · exact Option.some.inj (stored.symm.trans stored')
  · have apart := extents.disjoint stored' stored after
    omega

def Denotes (E : Int → Option HashLocPair) (x : Int) (q : Piece) : Prop :=
  ∃ k h, E k = some h ∧ h.covers x = true ∧ q = h.piece x

section
variable {chunkLength : Int} {E : Int → Option HashLocPair} {p : HashLocPair}

theorem update_cases {k : Int} {h : HashLocPair} (found : Function.update E p.pos (some p) k = some h) :
    (k = p.pos ∧ h = p) ∨ E k = some h := by
  by_cases here : k = p.pos
  · rw [here, Function.update_self] at found
    exact .inl ⟨here, (Option.some.inj found).symm⟩
  · rw [Function.update_of_ne here] at found
    exact .inr found

theorem Extents.update (extents : Extents chunkLength E) (low : 0 ≤ p.pos) (filled : 0 < p.nlen)
    (fits : p.pos + p.nlen ≤ chunkLength)
    (room : ∀ {k h}, E k = some h → k < p.pos + p.nlen → k + h.nlen ≤ p.pos) :
    Extents chunkLength (Function.update E p.pos (some p)) where
  keyed := by
    intro k h found
    rcases update_cases found with ⟨rfl, rfl⟩ | old
    · rfl
    · exact extents.keyed old
  start := by
    intro k h found
    rcases update_cases found with ⟨rfl, -⟩ | old
    · exact low
    · exact extents.start old
  filled := by
    intro k h found
    rcases update_cases found with ⟨-, rfl⟩ | old
    · exact filled
    · exact extents.filled old
  inside := by
    intro k h found
    rcases update_cases found with ⟨rfl, rfl⟩ | old
    · exact fits
    · exact extents.inside old
  disjoint := by
    intro k h k' h' found found' less
    rcases update_cases found with ⟨rfl, rfl⟩ | old
    · rcases update_cases found' with ⟨rfl, -⟩ | old'
      · omega
      · by_contra pastlap
        have short := room old' (by omega)
        have long := extents.filled old'
        omega
    · rcases update_cases found' with ⟨rfl, -⟩ | old'
      · exact room old (by omega)
      · exact extents.disjoint old old' less

theorem Extents.denotes_update (extents : Extents chunkLength E) (filled : 0 < p.nlen)
    (room : ∀ {k h}, E k = some h → k < p.pos + p.nlen → k + h.nlen ≤ p.pos) (x : Int) (q : Piece) :
    Denotes (Function.update E p.pos (some p)) x q ↔ if p.covers x then q = p.piece x else Denotes E x q := by
  constructor
  · rintro ⟨k, h, found, covered, rfl⟩
    rcases update_cases found with ⟨rfl, rfl⟩ | old
    · rw [if_pos covered]
    · rw [if_neg]
      · exact ⟨k, h, old, covered, rfl⟩
      · intro both
        rw [HashLocPair.covers_iff] at covered both
        have pos := extents.keyed old
        have short := room old (by omega)
        omega
  · intro claimed
    split at claimed
    · rename_i covered
      exact ⟨p.pos, p, Function.update_self _ _ _, covered, claimed⟩
    · obtain ⟨k, h, found, covered, rfl⟩ := claimed
      refine ⟨k, h, ?_, covered, rfl⟩
      rw [Function.update_of_ne, found]
      rintro rfl
      have short := room found (by omega)
      have long := extents.filled found
      omega

end

namespace Fingers

structure WellFormed (chunkLength : Int) (ar : Fingers) : Prop where
  extents : Extents chunkLength ar.entry
  allocated : ∀ {k r}, ar.tree.get k = some r → r < ar.allocated

def denotes (ar : Fingers) (x : Int) : Option Piece := (ar.values.find? fun h => h.covers x).map fun h => h.piece x

variable {chunkLength : Int} {ar : Fingers}

theorem entry_of_get {k : Int} {r : Nat} (stored : ar.tree.get k = some r) : ar.entry k = some (ar.objects r) := by
  rw [entry, stored, Option.map_some]

theorem get_of_entry {k : Int} {h : HashLocPair} (stored : ar.entry k = some h) :
    ∃ r, ar.tree.get k = some r ∧ ar.objects r = h :=
  Option.map_eq_some_iff.mp stored

theorem mem_values {h : HashLocPair} : h ∈ ar.values ↔ ∃ k, ar.entry k = some h := by
  rw [values, List.mem_map]
  constructor
  · rintro ⟨⟨k, r⟩, member, rfl⟩
    exact ⟨k, entry_of_get ((OrderedMap.get_eq_some _ _ _).mpr member)⟩
  · rintro ⟨k, stored⟩
    obtain ⟨r, found, same⟩ := get_of_entry stored
    exact ⟨(k, r), (OrderedMap.get_eq_some _ _ _).mp found, same⟩

theorem WellFormed.denotes_iff (wf : WellFormed chunkLength ar) (x : Int) (q : Piece) :
    ar.denotes x = some q ↔ Denotes ar.entry x q := by
  rw [denotes, Option.map_eq_some_iff]
  constructor
  · rintro ⟨h, found, rfl⟩
    obtain ⟨k, stored⟩ := mem_values.mp (List.mem_of_find?_eq_some found)
    have covered : h.covers x = true := @List.find?_some _ (fun h : HashLocPair => h.covers x) _ _ found
    exact ⟨k, h, stored, covered, rfl⟩
  · rintro ⟨k, h, stored, covered, rfl⟩
    cases found : ar.values.find? fun h => h.covers x with
    | none => exact absurd covered (List.find?_eq_none.mp found h (mem_values.mpr ⟨k, stored⟩))
    | some h' =>
      obtain ⟨k', stored'⟩ := mem_values.mp (List.mem_of_find?_eq_some found)
      have covered' : h'.covers x = true := @List.find?_some _ (fun h : HashLocPair => h.covers x) _ _ found
      exact ⟨h', rfl, by rw [wf.extents.covering_unique stored' covered' stored covered]⟩

theorem WellFormed.denotes_ext (wf : WellFormed chunkLength ar) {f : Int → Option Piece}
    (same : ∀ x q, Denotes ar.entry x q ↔ f x = some q) : ar.denotes = f := by
  funext x
  apply Option.ext
  intro q
  rw [wf.denotes_iff, same]

theorem WellFormed.ref_unique (wf : WellFormed chunkLength ar) {k k' : Int} {r : Nat} (stored : ar.tree.get k = some r)
    (stored' : ar.tree.get k' = some r) : k = k' :=
  (wf.extents.keyed (entry_of_get stored)).symm.trans (wf.extents.keyed (entry_of_get stored'))

theorem WellFormed.ep_eq (wf : WellFormed chunkLength ar) (small : chunkLength < 2 ^ 31) {k : Int} {h : HashLocPair}
    (stored : ar.entry k = some h) : h.ep = k + h.nlen := by
  have start := wf.extents.start stored
  have filled := wf.extents.filled stored
  have inside := wf.extents.inside stored
  rw [HashLocPair.ep, wf.extents.keyed stored, int_eq (by omega) (by omega)]

/-! ### Changes of one object -/

theorem WellFormed.entry_set (wf : WellFormed chunkLength ar) {j : Int} {r : Nat} (stored : ar.tree.get j = some r)
    (h : HashLocPair) (k : Int) : (ar.set r h).entry k = if k = j then some h else ar.entry k := by
  rw [entry, entry, set]
  dsimp only
  by_cases here : k = j
  · rw [here, stored, Option.map_some, if_pos rfl, if_pos rfl]
  · rw [if_neg here]
    cases found : ar.tree.get k with
    | none => rfl
    | some r' =>
      have other : r' ≠ r := by
        rintro rfl
        exact here (wf.ref_unique found stored)
      rw [Option.map_some, if_neg other, Option.map_some]

theorem entry_remove (ar : Fingers) (j k : Int) : (ar.remove j).entry k = if k = j then none else ar.entry k := by
  rw [entry, remove, OrderedMap.get_delete]
  split
  · rfl
  · rfl

theorem entry_putRef (ar : Fingers) (j k : Int) (r : Nat) :
    (ar.putRef j r).entry k = if k = j then some (ar.objects r) else ar.entry k := by
  rw [entry, putRef, OrderedMap.get_put]
  split
  · rfl
  · rfl

theorem entry_put (fresh : ∀ {k r}, ar.tree.get k = some r → r < ar.allocated) (j k : Int) (h : HashLocPair) :
    (ar.put j h).entry k = if k = j then some h else ar.entry k := by
  have others : (ar.set ar.allocated h).entry k = ar.entry k := by
    rw [entry, entry, set]
    dsimp only
    cases found : ar.tree.get k with
    | none => rfl
    | some r =>
      have old := fresh found
      rw [Option.map_some, if_neg (by omega), Option.map_some]
  have there : (ar.set ar.allocated h).objects ar.allocated = h := if_pos rfl
  have same : (ar.put j h).entry k = ((ar.set ar.allocated h).putRef j ar.allocated).entry k := rfl
  rw [same, entry_putRef, there, others]

theorem allocated_put (fresh : ∀ {k r}, ar.tree.get k = some r → r < ar.allocated) (j : Int) (h : HashLocPair)
    {k : Int} {r : Nat} (found : (ar.put j h).tree.get k = some r) : r < (ar.put j h).allocated := by
  have same : (ar.put j h).tree = ar.tree.put j ar.allocated := rfl
  rw [same, OrderedMap.get_put] at found
  split at found
  · cases Option.some.inj found
    exact Nat.lt_succ_self _
  · exact Nat.lt_succ_of_lt (fresh found)

theorem empty_wellFormed (chunkLength : Int) : empty.WellFormed chunkLength := by
  have absent : ∀ {k h}, empty.entry k ≠ some h := fun found => nomatch found
  refine ⟨⟨?_, ?_, ?_, ?_, ?_⟩, fun found => nomatch found⟩
  all_goals exact fun found => absurd found absent

end Fingers

end EncryptedDedup.SDFS
