import EncryptedDedup.SDFS.ExtentMap

/-!
# The insertion loop

The loop walks the extents down from the end of the new one. Each turn takes the bytes of one extent out
of the way.
-/

namespace EncryptedDedup.SDFS.Fingers

/-! ### What a turn leaves of an extent -/

def behind (ep : Int) (h : HashLocPair) : HashLocPair :=
  { h with pos := ep, offset := int (h.offset + (ep - h.pos)), nlen := h.nlen - (ep - h.pos) }

def before (p h : HashLocPair) : HashLocPair := { h with nlen := p.pos - h.pos }

variable {chunkLength ep : Int} {E : Int → Option HashLocPair} {j : Int} {h p : HashLocPair}

/-- Of the extent at `j` only the part behind `ep` stays. -/
def takeBehind (ep : Int) (E : Int → Option HashLocPair) (j : Int) (h : HashLocPair) : Int → Option HashLocPair :=
  fun k => if k = ep ∧ ep < j + h.nlen then some (behind ep h) else if k = j then none else E k

/-- Of the extent at `j` only the part before the new one stays. -/
def takeBefore (p : HashLocPair) (E : Int → Option HashLocPair) (j : Int) (h : HashLocPair) :
    Int → Option HashLocPair :=
  fun k => if k = j then some (before p h) else E k

theorem takeBehind_cases {k : Int} {g : HashLocPair} (found : takeBehind ep E j h k = some g) :
    k = ep ∧ ep < j + h.nlen ∧ g = behind ep h ∨ k ≠ j ∧ E k = some g := by
  rw [takeBehind] at found
  split at found
  · rename_i both
    exact Or.inl ⟨both.1, both.2, (Option.some.inj found).symm⟩
  · split at found
    · cases found
    · rename_i other
      exact Or.inr ⟨other, found⟩

theorem takeBefore_cases {k : Int} {g : HashLocPair} (found : takeBefore p E j h k = some g) :
    k = j ∧ g = before p h ∨ k ≠ j ∧ E k = some g := by
  rw [takeBefore] at found
  split at found
  · rename_i here
    exact Or.inl ⟨here, (Option.some.inj found).symm⟩
  · rename_i other
    exact Or.inr ⟨other, found⟩

theorem extents_takeBehind (extents : Extents chunkLength E) (here : E j = some h) (upto : j ≤ ep)
    (greatest : ∀ k g, E k = some g → k < ep → k ≤ j) : Extents chunkLength (takeBehind ep E j h) := by
  have pos := extents.keyed here
  have start := extents.start here
  have inside := extents.inside here
  refine ⟨?_, ?_, ?_, ?_, ?_⟩
  · intro k g found
    rcases takeBehind_cases found with ⟨rfl, -, rfl⟩ | ⟨-, old⟩
    · rfl
    · exact extents.keyed old
  · intro k g found
    rcases takeBehind_cases found with ⟨rfl, -, rfl⟩ | ⟨-, old⟩
    · omega
    · exact extents.start old
  · intro k g found
    rcases takeBehind_cases found with ⟨rfl, longer, rfl⟩ | ⟨-, old⟩
    · simp only [behind, pos]
      omega
    · exact extents.filled old
  · intro k g found
    rcases takeBehind_cases found with ⟨rfl, -, rfl⟩ | ⟨-, old⟩
    · simp only [behind, pos]
      omega
    · exact extents.inside old
  · intro k g k' g' found found' less
    rcases takeBehind_cases found with ⟨rfl, longer, rfl⟩ | ⟨other, old⟩
    · rcases takeBehind_cases found' with ⟨rfl, -, -⟩ | ⟨-, old'⟩
      · omega
      · have apart := extents.disjoint here old' (by omega)
        simp only [behind, pos]
        omega
    · rcases takeBehind_cases found' with ⟨rfl, longer, rfl⟩ | ⟨-, old'⟩
      · have under := greatest k g old less
        have apart := extents.disjoint old here (by omega)
        omega
      · exact extents.disjoint old old' less

theorem piece_behind (pos : h.pos = j) (x : Int) : (behind ep h).piece x = h.piece x := by
  have same : h.offset + (ep - j) + (x - ep) = h.offset + (x - j) := by omega
  simp only [HashLocPair.piece, behind, pos, int_int_add, same]

theorem denotes_takeBehind (extents : Extents chunkLength E) (here : E j = some h) (upto : j ≤ ep) {x : Int}
    (outside : ¬ (j ≤ x ∧ x < ep)) (q : Piece) : Denotes (takeBehind ep E j h) x q ↔ Denotes E x q := by
  have pos := extents.keyed here
  have covers : (behind ep h).covers x = true ↔ ep ≤ x ∧ x < j + h.nlen := by
    rw [HashLocPair.covers_iff]
    simp only [behind, pos]
    omega
  constructor
  · rintro ⟨k, g, found, covered, rfl⟩
    rcases takeBehind_cases found with ⟨rfl, longer, rfl⟩ | ⟨-, old⟩
    · have within := covers.mp covered
      exact ⟨j, h, here, HashLocPair.covers_iff.mpr (by omega), piece_behind pos x⟩
    · exact ⟨k, g, old, covered, rfl⟩
  · rintro ⟨k, g, found, covered, rfl⟩
    by_cases same : k = j
    · subst same
      cases Option.some.inj (here.symm.trans found)
      have within := HashLocPair.covers_iff.mp covered
      have longer : ep < k + h.nlen := by omega
      exact ⟨ep, behind ep h, if_pos ⟨rfl, longer⟩, covers.mpr (by omega), (piece_behind pos x).symm⟩
    · refine ⟨k, g, ?_, covered, rfl⟩
      rw [takeBehind, if_neg, if_neg same, found]
      rintro ⟨rfl, longer⟩
      have apart := extents.disjoint here found (by omega)
      omega

theorem extents_takeBefore (extents : Extents chunkLength E) (here : E j = some h) (ahead : j < p.pos)
    (reaches : p.pos ≤ j + h.nlen) : Extents chunkLength (takeBefore p E j h) := by
  have pos := extents.keyed here
  have start := extents.start here
  have inside := extents.inside here
  refine ⟨?_, ?_, ?_, ?_, ?_⟩
  · intro k g found
    rcases takeBefore_cases found with ⟨rfl, rfl⟩ | ⟨-, old⟩
    · exact pos
    · exact extents.keyed old
  · intro k g found
    rcases takeBefore_cases found with ⟨rfl, rfl⟩ | ⟨-, old⟩
    · exact start
    · exact extents.start old
  · intro k g found
    rcases takeBefore_cases found with ⟨rfl, rfl⟩ | ⟨-, old⟩
    · simp only [before, pos]
      omega
    · exact extents.filled old
  · intro k g found
    rcases takeBefore_cases found with ⟨rfl, rfl⟩ | ⟨-, old⟩
    · simp only [before, pos]
      omega
    · exact extents.inside old
  · intro k g k' g' found found' less
    rcases takeBefore_cases found' with ⟨rfl, rfl⟩ | ⟨-, old'⟩
    · rcases takeBefore_cases found with ⟨rfl, -⟩ | ⟨-, old⟩
      · omega
      · exact extents.disjoint old here less
    · rcases takeBefore_cases found with ⟨rfl, rfl⟩ | ⟨-, old⟩
      · have apart := extents.disjoint here old' less
        simp only [before, pos]
        omega
      · exact extents.disjoint old old' less

theorem denotes_takeBefore (extents : Extents chunkLength E) (here : E j = some h) {x : Int}
    (outside : ¬ (p.pos ≤ x ∧ x < j + h.nlen)) (reaches : p.pos ≤ j + h.nlen) (q : Piece) :
    Denotes (takeBefore p E j h) x q ↔ Denotes E x q := by
  have pos := extents.keyed here
  have covers : (before p h).covers x = true ↔ j ≤ x ∧ x < p.pos := by
    rw [HashLocPair.covers_iff]
    simp only [before, pos]
    omega
  constructor
  · rintro ⟨k, g, found, covered, rfl⟩
    rcases takeBefore_cases found with ⟨rfl, rfl⟩ | ⟨-, old⟩
    · have within := covers.mp covered
      exact ⟨k, h, here, HashLocPair.covers_iff.mpr (by omega), rfl⟩
    · exact ⟨k, g, old, covered, rfl⟩
  · rintro ⟨k, g, found, covered, rfl⟩
    by_cases same : k = j
    · subst same
      cases Option.some.inj (here.symm.trans found)
      have within := HashLocPair.covers_iff.mp covered
      exact ⟨k, before p h, if_pos rfl, covers.mpr (by omega), rfl⟩
    · exact ⟨k, g, (if_neg same).trans found, covered, rfl⟩

/-! ### One turn -/

variable {ar : Fingers} {r : Nat}

theorem WellFormed.entry_trim_behind (wf : WellFormed chunkLength ar) (stored : ar.tree.get j = some r)
    (from_ : p.pos ≤ j) : (trim p ep ar r).entry = takeBehind ep ar.entry j (ar.objects r) := by
  have pos := wf.extents.keyed (entry_of_get stored)
  have rest : ∀ k, ((ar.set r (behind ep (ar.objects r))).remove j).entry k = if k = j then none else ar.entry k := by
    intro k
    rw [entry_remove, wf.entry_set stored]
    split
    · rfl
    · rfl
  have there : ((ar.set r (behind ep (ar.objects r))).remove j).objects r = behind ep (ar.objects r) := if_pos rfl
  have shape : trim p ep ar r =
      if 0 < (ar.objects r).nlen - (ep - j) then ((ar.set r (behind ep (ar.objects r))).remove j).putRef ep r
      else (ar.set r (behind ep (ar.objects r))).remove j := by
    rw [trim, pos, if_pos from_]
    simp only [behind, pos]
  funext k
  rw [shape, takeBehind]
  by_cases more : 0 < (ar.objects r).nlen - (ep - j)
  · rw [if_pos more, entry_putRef, there, rest]
    have longer : ep < j + (ar.objects r).nlen := by omega
    simp only [longer, and_true]
  · have covered : ¬ (k = ep ∧ ep < j + (ar.objects r).nlen) := by omega
    rw [if_neg more, rest]
    exact (if_neg covered).symm

theorem WellFormed.entry_trim_before (wf : WellFormed chunkLength ar) (stored : ar.tree.get j = some r)
    (ahead : j < p.pos) (within : (ar.objects r).ep ≤ ep) :
    (trim p ep ar r).entry = takeBefore p ar.entry j (ar.objects r) := by
  have pos := wf.extents.keyed (entry_of_get stored)
  have shape : trim p ep ar r = ar.set r (before p (ar.objects r)) := by
    rw [trim, pos, if_neg (by omega), if_neg (by omega), before, pos]
  funext k
  rw [shape, wf.entry_set stored, takeBefore]

theorem pos_trim (pos : (ar.objects r).pos = j) :
    ((trim p ep ar r).objects r).pos = if p.pos ≤ j then ep else j := by
  rw [trim, pos]
  split
  · dsimp only
    split <;> simp [putRef, remove, set]
  · dsimp only
    split <;> simp [putRef, set]

theorem WellFormed.allocated_trim (wf : WellFormed chunkLength ar) (stored : ar.tree.get j = some r) {k : Int} {i : Nat}
    (found : (trim p ep ar r).tree.get k = some i) : i < (trim p ep ar r).allocated := by
  have known : i = r ∨ ar.tree.get k = some i := by
    rw [trim] at found
    split at found
    · dsimp only at found
      split at found
      · rw [putRef, OrderedMap.get_put] at found
        split at found
        · exact Or.inl (Option.some.inj found).symm
        · rw [remove, OrderedMap.get_delete] at found
          split at found
          · cases found
          · exact Or.inr found
      · rw [remove, OrderedMap.get_delete] at found
        split at found
        · cases found
        · exact Or.inr found
    · dsimp only at found
      split at found
      · rw [set, putRef, OrderedMap.get_put] at found
        split at found
        · exact Or.inl (Option.some.inj found).symm
        · exact Or.inr found
      · exact Or.inr found
  have same : (trim p ep ar r).allocated = ar.allocated := by
    rw [trim]
    split
    · dsimp only
      split <;> rfl
    · dsimp only
      split <;> rfl
  rw [same]
  rcases known with rfl | old
  · exact wf.allocated stored
  · exact wf.allocated old

/-! ### The walk -/

/-- Where the loop is: the bytes outside the new extent are as they were, and no extent that the walk has
passed reaches into it. -/
structure Trimming (chunkLength : Int) (ar₀ : Fingers) (p : HashLocPair) (ep : Int) (w : Walk) : Prop where
  wf : w.ar.WellFormed chunkLength
  kept : ∀ x, ¬ (p.pos ≤ x ∧ x < ep) → ∀ q, Denotes w.ar.entry x q ↔ Denotes ar₀.entry x q
  passed : ∀ {k h}, w.ar.entry k = some h → w.ep < k → k < ep → k + h.nlen ≤ p.pos
  -- The new extent is inside no other.
  across : ∀ {k h}, w.ar.entry k = some h → k < p.pos → k + h.nlen ≤ ep
  near : w.ep ≤ ep
  last : ep - 1 ≤ w.ep ∨ ∀ {k h}, w.ar.entry k = some h → k ≤ w.ep → k + h.nlen < p.pos

def ahead (w : Walk) : Finset Int := w.ar.tree.keys.toFinset.filter fun k => k ≤ w.ep

theorem mem_ahead {w : Walk} {k : Int} : k ∈ ahead w ↔ (∃ h, w.ar.entry k = some h) ∧ k ≤ w.ep := by
  rw [ahead, Finset.mem_filter, List.mem_toFinset, OrderedMap.mem_keys]
  refine and_congr_left fun _ => ⟨fun ⟨r, stored⟩ => ⟨_, entry_of_get stored⟩, fun ⟨h, stored⟩ => ?_⟩
  obtain ⟨r, found, -⟩ := get_of_entry stored
  exact ⟨r, found⟩

variable {ar₀ : Fingers} {w : Walk}

theorem guard_bottom (floor : w.ar.tree.floorEntry w.ep = none) : (insertLoop p ep).guard w = false := by
  simp only [insertLoop, floor]

theorem guard_floor (floor : w.ar.tree.floorEntry w.ep = some (j, r)) :
    (insertLoop p ep).guard w = decide (p.pos ≤ (w.ar.objects r).ep) := by
  simp only [insertLoop, floor]

theorem body_floor (floor : w.ar.tree.floorEntry w.ep = some (j, r)) :
    (insertLoop p ep).body w = some ⟨trim p ep w.ar r, ((trim p ep w.ar r).objects r).pos - 1⟩ := by
  simp only [insertLoop, floor, Option.map_some]

theorem ahead_lt {u : Walk} {k : Int} {g : HashLocPair} (here : w.ar.entry k = some g) (below : k ≤ w.ep)
    (gone : ∀ g', u.ar.entry k = some g' → u.ep < k)
    (old : ∀ i g', u.ar.entry i = some g' → i ≤ u.ep → (∃ g, w.ar.entry i = some g) ∧ i ≤ w.ep) :
    (ahead u).card < (ahead w).card := by
  apply Finset.card_lt_card
  rw [Finset.ssubset_iff_of_subset]
  · refine ⟨k, mem_ahead.mpr ⟨⟨g, here⟩, below⟩, fun member => ?_⟩
    obtain ⟨⟨g', found⟩, under⟩ := mem_ahead.mp member
    have passed := gone g' found
    omega
  · intro i member
    obtain ⟨⟨g', found⟩, under⟩ := mem_ahead.mp member
    exact mem_ahead.mpr (old i g' found under)

theorem Trimming.step_behind (trimming : Trimming chunkLength ar₀ p ep w) (fits : p.pos < ep)
    (stored : w.ar.tree.get j = some r) (below : j ≤ w.ep)
    (greatest : ∀ k g, w.ar.entry k = some g → k ≤ w.ep → k ≤ j) (from_ : p.pos ≤ j) :
    Trimming chunkLength ar₀ p ep ⟨trim p ep w.ar r, ep - 1⟩ ∧
      (ahead ⟨trim p ep w.ar r, ep - 1⟩).card < (ahead w).card := by
  obtain ⟨wf, kept, passed, across, near, last⟩ := trimming
  have here := entry_of_get stored
  have filled := wf.extents.filled here
  have reach : ep - 1 ≤ w.ep := by
    rcases last with far | out
    · exact far
    · have short := out here below
      omega
  have entries := @WellFormed.entry_trim_behind _ ep _ p w.ar r wf stored from_
  have extents := extents_takeBehind wf.extents here (by omega : j ≤ ep) fun k g found less =>
    greatest k g found (by omega)
  rw [← entries] at extents
  refine ⟨⟨⟨extents, wf.allocated_trim stored⟩, ?_, ?_, ?_, by dsimp only; omega, Or.inl (le_refl _)⟩, ?_⟩
  · intro x outside q
    rw [← kept x outside q, entries]
    exact denotes_takeBehind wf.extents here (by omega) (by omega) q
  · intro k g found after less
    dsimp only at after
    omega
  · intro k g found less
    rw [entries] at found
    rcases takeBehind_cases found with ⟨rfl, -, rfl⟩ | ⟨-, old⟩
    · omega
    · exact across old less
  · refine ahead_lt here below ?_ ?_
    · intro g found
      rw [entries] at found
      rcases takeBehind_cases found with ⟨rfl, -, -⟩ | ⟨other, -⟩
      · dsimp only
        omega
      · exact absurd rfl other
    · intro k g found under
      dsimp only at under
      rw [entries] at found
      rcases takeBehind_cases found with ⟨rfl, -, -⟩ | ⟨-, old⟩
      · omega
      · exact ⟨⟨g, old⟩, by omega⟩

theorem Trimming.step_before (trimming : Trimming chunkLength ar₀ p ep w) (small : chunkLength < 2 ^ 31)
    (fits : p.pos < ep) (stored : w.ar.tree.get j = some r) (below : j ≤ w.ep)
    (greatest : ∀ k g, w.ar.entry k = some g → k ≤ w.ep → k ≤ j) (ahead_ : j < p.pos)
    (reaches : p.pos ≤ j + (w.ar.objects r).nlen) :
    Trimming chunkLength ar₀ p ep ⟨trim p ep w.ar r, j - 1⟩ ∧
      (ahead ⟨trim p ep w.ar r, j - 1⟩).card < (ahead w).card := by
  obtain ⟨wf, kept, passed, across, near, last⟩ := trimming
  have here := entry_of_get stored
  have pos := wf.extents.keyed here
  have within : (w.ar.objects r).ep ≤ ep := by
    rw [wf.ep_eq small here]
    exact across here ahead_
  have entries := wf.entry_trim_before stored ahead_ within
  have extents := extents_takeBefore wf.extents here ahead_ reaches
  rw [← entries] at extents
  refine ⟨⟨⟨extents, wf.allocated_trim stored⟩, ?_, ?_, ?_, by dsimp only; omega, Or.inr ?_⟩, ?_⟩
  · intro x outside q
    have short := across here ahead_
    rw [← kept x outside q, entries]
    exact denotes_takeBefore wf.extents here (by omega) reaches q
  · intro k g found after less
    dsimp only at after
    rw [entries] at found
    rcases takeBefore_cases found with ⟨rfl, rfl⟩ | ⟨other, old⟩
    · simp only [before, pos]
      omega
    · by_cases under : k ≤ w.ep
      · have least := greatest k g old under
        omega
      · exact passed old (by omega) less
  · intro k g found less
    rw [entries] at found
    rcases takeBefore_cases found with ⟨rfl, rfl⟩ | ⟨-, old⟩
    · simp only [before, pos]
      omega
    · exact across old less
  · intro k g found under
    dsimp only at under
    rw [entries] at found
    rcases takeBefore_cases found with ⟨rfl, -⟩ | ⟨-, old⟩
    · omega
    · have apart := wf.extents.disjoint old here (by omega)
      omega
  · refine ahead_lt here below ?_ ?_
    · intro g _
      dsimp only
      omega
    · intro k g found under
      dsimp only at under
      rw [entries] at found
      rcases takeBefore_cases found with ⟨rfl, -⟩ | ⟨-, old⟩
      · omega
      · exact ⟨⟨g, old⟩, by omega⟩

/-- A turn keeps the rest of the chunk. -/
theorem Trimming.step (trimming : Trimming chunkLength ar₀ p ep w) (small : chunkLength < 2 ^ 31) (fits : p.pos < ep)
    (guarded : (insertLoop p ep).guard w = true) :
    ∃ u, (insertLoop p ep).body w = some u ∧ Trimming chunkLength ar₀ p ep u ∧ (ahead u).card < (ahead w).card := by
  cases floor : w.ar.tree.floorEntry w.ep with
  | none =>
    rw [guard_bottom floor] at guarded
    cases guarded
  | some e =>
    obtain ⟨j, r⟩ := e
    obtain ⟨stored, below, most⟩ := OrderedMap.floorEntry_eq_some floor
    have here := entry_of_get stored
    have pos := trimming.wf.extents.keyed here
    have greatest : ∀ k g, w.ar.entry k = some g → k ≤ w.ep → k ≤ j := by
      intro k g found under
      obtain ⟨i, known, -⟩ := get_of_entry found
      exact most k i known under
    rw [guard_floor floor] at guarded
    have reaches := of_decide_eq_true guarded
    rw [trimming.wf.ep_eq small here] at reaches
    have turn := @body_floor ep j p r w floor
    rw [pos_trim pos] at turn
    by_cases from_ : p.pos ≤ j
    · rw [if_pos from_] at turn
      exact ⟨_, turn, trimming.step_behind fits stored below greatest from_⟩
    · rw [if_neg from_] at turn
      exact ⟨_, turn, trimming.step_before small fits stored below greatest (by omega) reaches⟩

/-- When the loop ends, no extent reaches into the new one. -/
theorem Trimming.ended (trimming : Trimming chunkLength ar₀ p ep w) (small : chunkLength < 2 ^ 31)
    (stopped : (insertLoop p ep).guard w = false) {k : Int} {g : HashLocPair} (found : w.ar.entry k = some g)
    (less : k < ep) : k + g.nlen ≤ p.pos := by
  by_cases under : k ≤ w.ep
  · obtain ⟨i, known, rfl⟩ := get_of_entry found
    cases floor : w.ar.tree.floorEntry w.ep with
    | none =>
      have above := OrderedMap.floorEntry_eq_none floor known
      omega
    | some e =>
      obtain ⟨j, r⟩ := e
      obtain ⟨stored, below, most⟩ := OrderedMap.floorEntry_eq_some floor
      have here := entry_of_get stored
      rw [guard_floor floor] at stopped
      have out := of_decide_eq_false stopped
      rw [trimming.wf.ep_eq small here] at out
      rcases lt_or_eq_of_le (most k i known under) with lower | rfl
      · have apart := trimming.wf.extents.disjoint found here lower
        have filled := trimming.wf.extents.filled here
        omega
      · cases Option.some.inj (known.symm.trans stored)
        omega
  · exact trimming.passed found (by omega) less

/-! ### What holds of parts -/

/-- What holds of an extent holds of the parts that a walk leaves of it. -/
structure CutClosed (P : HashLocPair → Prop) : Prop where
  behind : ∀ {h ep}, P h → h.pos ≤ ep → ep < h.pos + h.nlen → P (behind ep h)
  before : ∀ {h p}, P h → h.pos < p.pos → p.pos ≤ h.pos + h.nlen → P (before p h)

theorem Trimming.every_step {P : HashLocPair → Prop} (closed : CutClosed P)
    (trimming : Trimming chunkLength ar₀ p ep w) (small : chunkLength < 2 ^ 31) (every : ∀ k h, w.ar.entry k = some h → P h)
    (guarded : (insertLoop p ep).guard w = true) {u : Walk} (turn : (insertLoop p ep).body w = some u) :
    ∀ k h, u.ar.entry k = some h → P h := by
  cases floor : w.ar.tree.floorEntry w.ep with
  | none =>
    rw [guard_bottom floor] at guarded
    cases guarded
  | some e =>
    obtain ⟨j, r⟩ := e
    obtain ⟨stored, below, -⟩ := OrderedMap.floorEntry_eq_some floor
    have here := entry_of_get stored
    have pos := trimming.wf.extents.keyed here
    have near := trimming.near
    rw [guard_floor floor] at guarded
    have reaches := of_decide_eq_true guarded
    rw [trimming.wf.ep_eq small here] at reaches
    rw [body_floor floor] at turn
    obtain rfl := Option.some.inj turn
    intro k h found
    by_cases from_ : p.pos ≤ j
    · rw [trimming.wf.entry_trim_behind stored from_] at found
      rcases takeBehind_cases found with ⟨-, longer, rfl⟩ | ⟨-, old⟩
      · exact closed.behind (every j _ here) (by omega) (by omega)
      · exact every k h old
    · have within : (w.ar.objects r).ep ≤ ep := by
        rw [trimming.wf.ep_eq small here]
        exact trimming.across here (by omega)
      rw [trimming.wf.entry_trim_before stored (by omega) within] at found
      rcases takeBefore_cases found with ⟨-, rfl⟩ | ⟨-, old⟩
      · exact closed.before (every j _ here) (by omega) (by omega)
      · exact every k h old

end EncryptedDedup.SDFS.Fingers
