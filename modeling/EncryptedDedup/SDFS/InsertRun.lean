import EncryptedDedup.SDFS.Insertion
import EncryptedDedup.Lib.Patches
import Mathlib.Data.Int.Interval

/-!
# Insertions

What an insertion does to the contents of a chunk, and when.
-/

namespace EncryptedDedup.SDFS

/-- The fields of an extent of an `int` length at an `int` position. -/
def HashLocPair.IsExtent (p : HashLocPair) : Prop := 0 ≤ p.pos ∧ p.pos < 2 ^ 31 ∧ 0 < p.nlen ∧ p.nlen < 2 ^ 31

namespace Fingers

variable {chunkLength : Int} {ar : Fingers} {p : HashLocPair}

/-! ### An insertion that is inside no extent -/

theorem WellFormed.ahead_le (wf : ar.WellFormed chunkLength) (ep : Int) : (ahead ⟨ar, ep⟩).card ≤ chunkLength.toNat := by
  have inside : ahead ⟨ar, ep⟩ ⊆ Finset.Ico 0 chunkLength := by
    intro k member
    obtain ⟨⟨h, stored⟩, -⟩ := mem_ahead.mp member
    have start := wf.extents.start stored
    have filled := wf.extents.filled stored
    have end_ := wf.extents.inside stored
    exact Finset.mem_Ico.mpr ⟨start, by omega⟩
  have counted := Finset.card_le_card inside
  rwa [Int.card_Ico, sub_zero] at counted

theorem trimming_start (wf : ar.WellFormed chunkLength) {ep : Int}
    (across : ∀ {k h}, ar.entry k = some h → k < p.pos → k + h.nlen ≤ ep) :
    Trimming chunkLength ar p ep ⟨ar, ep⟩ :=
  ⟨wf, fun _ _ _ => Iff.rfl, fun _ after less => absurd after (by dsimp only; omega), across, le_refl _,
    Or.inl (by dsimp only; omega)⟩

theorem WellFormed.put (wf : ar.WellFormed chunkLength) (low : 0 ≤ p.pos) (filled : 0 < p.nlen)
    (fits : p.pos + p.nlen ≤ chunkLength)
    (room : ∀ {k h}, ar.entry k = some h → k < p.pos + p.nlen → k + h.nlen ≤ p.pos) :
    (ar.put p.pos p).WellFormed chunkLength ∧
      ∀ x q, Denotes (ar.put p.pos p).entry x q ↔ if p.covers x then q = p.piece x else Denotes ar.entry x q := by
  have entries : (ar.put p.pos p).entry = Function.update ar.entry p.pos (some p) := by
    funext k
    rw [entry_put wf.allocated, Function.update_apply]
  rw [entries]
  refine ⟨⟨?_, allocated_put wf.allocated p.pos p⟩, wf.extents.denotes_update filled room⟩
  rw [entries]
  exact wf.extents.update low filled fits room

/-- The insertion is in range and inside no extent. -/
def Safe (chunkLength : Int) (ar : Fingers) (p : HashLocPair) : Prop :=
  p.pos + p.nlen < 2 ^ 31 ∧
    (p.pos + p.nlen ≤ chunkLength → ∀ k h, ar.entry k = some h → k < p.pos → k + h.nlen ≤ p.pos + p.nlen)

/-- What an insertion is for. -/
def InsertsRight (chunkLength : Int) (ar : Fingers) (p : HashLocPair) : Prop :=
  ∀ fuel, chunkLength.toNat ≤ fuel →
    if chunkLength < p.pos + p.nlen then ∃ e, insertHashLocPair chunkLength fuel ar p = .finished (ar, some e)
    else ∃ ar', insertHashLocPair chunkLength fuel ar p = .finished (ar', none) ∧ ar'.WellFormed chunkLength ∧
      ar'.denotes = patch HashLocPair.covers HashLocPair.piece ar.denotes p

/-- A safe insertion that fits the chunk ends with the new extent in the map. -/
theorem inserted_of_safe (small : chunkLength < 2 ^ 31) (wf : ar.WellFormed chunkLength) (extent : p.IsExtent)
    (fits : p.pos + p.nlen ≤ chunkLength)
    (across : ∀ k h, ar.entry k = some h → k < p.pos → k + h.nlen ≤ p.pos + p.nlen) {fuel : Nat}
    (enough : chunkLength.toNat ≤ fuel) :
    ∃ ar', insertHashLocPair chunkLength fuel ar p = .finished (ar', none) ∧ ar'.WellFormed chunkLength ∧
      ar'.denotes = patch HashLocPair.covers HashLocPair.piece ar.denotes p ∧ ar'.entry p.pos = some p := by
  obtain ⟨low, -, filled, -⟩ := extent
  have ep : p.ep = p.pos + p.nlen := int_eq (by omega) (by omega)
  have start := trimming_start (p := p) wf fun {k h} => across k h
  obtain ⟨w, finished, trimming, stopped⟩ := Loop.run_descends (insertLoop p (p.pos + p.nlen))
    (fun t inv guarded => inv.step small (by omega) guarded) start ((wf.ahead_le _).trans enough)
  obtain ⟨wf', denotes⟩ := trimming.wf.put low filled (by omega) fun found less => trimming.ended small stopped found less
  refine ⟨w.ar.put p.pos p, ?_, wf', wf'.denotes_ext fun x q => ?_, ?_⟩
  · rw [insertHashLocPair, ep, if_neg (by omega), finished]
    rfl
  · rw [denotes, patch]
    split
    · exact ⟨fun same => same ▸ rfl, fun same => (Option.some.inj same).symm⟩
    · rename_i outside
      rw [HashLocPair.covers_iff] at outside
      rw [trimming.kept x outside, wf.denotes_iff]
  · rw [entry_put trimming.wf.allocated, if_pos rfl]

theorem every_inserted {P : HashLocPair → Prop} (closed : CutClosed P) (small : chunkLength < 2 ^ 31)
    (wf : ar.WellFormed chunkLength) (extent : p.IsExtent) (fits : p.pos + p.nlen ≤ chunkLength)
    (across : ∀ k h, ar.entry k = some h → k < p.pos → k + h.nlen ≤ p.pos + p.nlen) {fuel : Nat}
    (enough : chunkLength.toNat ≤ fuel) (every : ∀ k h, ar.entry k = some h → P h) (new : P p) {ar' : Fingers}
    (inserted : insertHashLocPair chunkLength fuel ar p = .finished (ar', none)) :
    ∀ k h, ar'.entry k = some h → P h := by
  have low := extent.1
  have filled := extent.2.2.1
  have ep : p.ep = p.pos + p.nlen := int_eq (by omega) (by omega)
  have start := trimming_start (p := p) wf fun {k h} => across k h
  have keep : ∀ t, Trimming chunkLength ar p (p.pos + p.nlen) t ∧ (∀ k h, t.ar.entry k = some h → P h) →
      (insertLoop p (p.pos + p.nlen)).guard t = true → ∃ u, (insertLoop p (p.pos + p.nlen)).body t = some u ∧
        (Trimming chunkLength ar p (p.pos + p.nlen) u ∧ ∀ k h, u.ar.entry k = some h → P h) ∧
        (ahead u).card < (ahead t).card := by
    rintro t ⟨trimming, every⟩ guarded
    obtain ⟨u, turn, next, less⟩ := trimming.step small (by omega) guarded
    exact ⟨u, turn, ⟨next, trimming.every_step closed small every guarded turn⟩, less⟩
  obtain ⟨w, finished, ⟨trimming, every'⟩, -⟩ :=
    Loop.run_descends _ keep ⟨start, every⟩ ((wf.ahead_le _).trans enough)
  rw [insertHashLocPair, ep, if_neg (by omega), finished] at inserted
  obtain ⟨rfl, -⟩ := Prod.mk.inj (Outcome.finished.inj inserted)
  intro k h found
  rw [entry_put trimming.wf.allocated] at found
  split at found
  · rwa [← Option.some.inj found]
  · exact every' k h found

theorem insertsRight_of_safe (small : chunkLength < 2 ^ 31) (wf : ar.WellFormed chunkLength) (extent : p.IsExtent)
    (safe : Safe chunkLength ar p) : InsertsRight chunkLength ar p := by
  have range := safe.1
  have low := extent.1
  have filled := extent.2.2.1
  have ep : p.ep = p.pos + p.nlen := int_eq (by omega) (by omega)
  intro fuel enough
  split
  · rw [insertHashLocPair, ep, if_pos ‹_›]
    exact ⟨_, rfl⟩
  · rename_i fits
    obtain ⟨ar', finished, wf', denotes, -⟩ :=
      inserted_of_safe small wf extent (not_lt.mp fits) (safe.2 (not_lt.mp fits)) enough
    exact ⟨ar', finished, wf', denotes⟩

/-! ### The other insertions -/

/-- An end beyond the range of `int` comes out negative, and the extent is put like that. -/
theorem insert_overflow (positive : 0 < chunkLength) (wf : ar.WellFormed chunkLength) (extent : p.IsExtent)
    (past : 2 ^ 31 ≤ p.pos + p.nlen) (fuel : Nat) :
    insertHashLocPair chunkLength fuel ar p = .finished (ar.put p.pos p, none) := by
  obtain ⟨low, high, filled, wide⟩ := extent
  have negative : p.ep = p.pos + p.nlen - 2 ^ 32 := by
    rw [HashLocPair.ep, int, Int.bmod_def]
    split <;> omega
  have bottom : ar.tree.floorEntry p.ep = none := by
    cases floor : ar.tree.floorEntry p.ep with
    | none => rfl
    | some e =>
      obtain ⟨stored, below, -⟩ := OrderedMap.floorEntry_eq_some floor
      have start := wf.extents.start (entry_of_get stored)
      omega
  have stopped : (insertLoop p p.ep).guard ⟨ar, p.ep⟩ = false := guard_bottom bottom
  rw [insertHashLocPair, if_neg (by omega), Loop.run_stopped _ stopped]
  rfl

/-- An extent with bytes before and behind the new one is put under two keys. -/
theorem insert_inside (small : chunkLength < 2 ^ 31) (wf : ar.WellFormed chunkLength) (extent : p.IsExtent)
    (fits : p.pos + p.nlen ≤ chunkLength) {k : Int} {r : Nat} (stored : ar.tree.get k = some r) (ahead : k < p.pos)
    (across : p.pos + p.nlen < k + (ar.objects r).nlen) (fuel : Nat) :
    insertHashLocPair chunkLength (fuel + 1) ar p =
      .finished (((ar.putRef (p.pos + p.nlen) r).set r (before p (ar.objects r))).put p.pos p, none) := by
  obtain ⟨low, -, filled, -⟩ := extent
  have here := entry_of_get stored
  have pos := wf.extents.keyed here
  have end_ := wf.ep_eq small here
  have ep : p.ep = p.pos + p.nlen := int_eq (by omega) (by omega)
  have floor : ar.tree.floorEntry (p.pos + p.nlen) = some (k, r) := by
    refine OrderedMap.floorEntry_of_greatest stored (by omega) fun i w known under => ?_
    by_contra above
    have apart := wf.extents.disjoint here (entry_of_get known) (by omega)
    omega
  have turn : trim p (p.pos + p.nlen) ar r =
      (ar.putRef (p.pos + p.nlen) r).set r (before p (ar.objects r)) := by
    rw [trim, pos, end_, if_neg (by omega), if_pos across, before, pos]
  have first : (insertLoop p (p.pos + p.nlen)).guard ⟨ar, p.pos + p.nlen⟩ = true := by
    rw [guard_floor floor, end_]
    exact decide_eq_true (by omega)
  -- The extents before it end before it.
  have second : (insertLoop p (p.pos + p.nlen)).guard
      ⟨(ar.putRef (p.pos + p.nlen) r).set r (before p (ar.objects r)), k - 1⟩ = false := by
    cases bottom : ((ar.putRef (p.pos + p.nlen) r).set r (before p (ar.objects r))).tree.floorEntry (k - 1) with
    | none => exact guard_bottom bottom
    | some e =>
      obtain ⟨i, w⟩ := e
      obtain ⟨known, below, -⟩ := OrderedMap.floorEntry_eq_some bottom
      rw [set, putRef, OrderedMap.get_put, if_neg (by omega)] at known
      have there := entry_of_get known
      have other : w ≠ r := by
        rintro rfl
        have same := wf.ref_unique known stored
        omega
      have unchanged : ((ar.putRef (p.pos + p.nlen) r).set r (before p (ar.objects r))).objects w = ar.objects w :=
        if_neg other
      have apart := wf.extents.disjoint there here (by omega)
      rw [guard_floor bottom]
      dsimp only
      rw [unchanged, wf.ep_eq small there]
      exact decide_eq_false (by omega)
  have last : ((trim p (p.pos + p.nlen) ar r).objects r).pos = k := by
    rw [pos_trim pos, if_neg (by omega)]
  rw [insertHashLocPair, ep, if_neg (by omega), Loop.run, if_pos first, body_floor floor, last, turn]
  dsimp only
  rw [Loop.run_stopped _ second]
  rfl

theorem safe_of_insertsRight (positive : 0 < chunkLength) (small : chunkLength < 2 ^ 31)
    (wf : ar.WellFormed chunkLength) (extent : p.IsExtent) (right : InsertsRight chunkLength ar p) :
    Safe chunkLength ar p := by
  have turn := right chunkLength.toNat (le_refl _)
  constructor
  · by_contra past
    rw [if_pos (by omega), insert_overflow positive wf extent (by omega)] at turn
    obtain ⟨e, same⟩ := turn
    cases (Prod.mk.inj (Outcome.finished.inj same)).2
  · intro fits k h found ahead
    by_contra across
    obtain ⟨r, stored, rfl⟩ := get_of_entry found
    obtain ⟨fuel, same⟩ : ∃ fuel, chunkLength.toNat = fuel + 1 := ⟨chunkLength.toNat - 1, by omega⟩
    rw [if_neg (by omega), same, insert_inside small wf extent fits stored ahead (by omega)] at turn
    obtain ⟨ar', finished, wf', -⟩ := turn
    obtain ⟨rfl, -⟩ := Prod.mk.inj (Outcome.finished.inj finished)
    have filled := extent.2.2.1
    have pos := wf.extents.keyed found
    have old := wf.allocated stored
    -- The key behind the new extent leads to the object of the extent before it.
    have twice : (((ar.putRef (p.pos + p.nlen) r).set r (before p (ar.objects r))).put p.pos p).tree.get
        (p.pos + p.nlen) = some r := by
      rw [put, putRef, set, set, putRef, OrderedMap.get_put_other _ _ (by omega), OrderedMap.get_put_same]
    have object : (((ar.putRef (p.pos + p.nlen) r).set r (before p (ar.objects r))).put p.pos p).objects r =
        before p (ar.objects r) := by
      have first : r ≠ ar.allocated := by omega
      simp only [put, putRef, set, if_neg first, if_true]
    have keyed := wf'.extents.keyed (entry_of_get twice)
    rw [object, before] at keyed
    dsimp only at keyed
    omega

/-! ### Looking up a position -/

/-- What `getWL` should say about a position. -/
def Answers (contents : Int → Option Piece) (x : Int) : Except Thrown HashLocPair → Prop
  | .error e => e = .positionNotFound x ∧ contents x = none
  | .ok q => q.pos = x ∧ 0 < q.nlen ∧ ∀ y, x ≤ y → y < x + q.nlen → contents y = some (q.piece y)

theorem WellFormed.getWL_answers (small : chunkLength < 2 ^ 31) (wf : ar.WellFormed chunkLength) (x : Int) :
    Answers ar.denotes x (ar.getWL x) := by
  rw [getWL]
  cases floor : ar.tree.floorEntry x with
  | none =>
    refine ⟨rfl, Option.eq_none_iff_forall_ne_some.mpr fun q denoted => ?_⟩
    obtain ⟨k, h, found, covered, -⟩ := (wf.denotes_iff x q).mp denoted
    obtain ⟨r, stored, -⟩ := get_of_entry found
    have above := OrderedMap.floorEntry_eq_none floor stored
    rw [HashLocPair.covers_iff, wf.extents.keyed found] at covered
    omega
  | some e =>
    obtain ⟨k, r⟩ := e
    obtain ⟨stored, below, most⟩ := OrderedMap.floorEntry_eq_some floor
    have here := entry_of_get stored
    have pos := wf.extents.keyed here
    dsimp only
    rw [pos, wf.ep_eq small here]
    split
    · rename_i within
      refine ⟨rfl, by dsimp only; omega, fun y low high => ?_⟩
      dsimp only at high
      rw [wf.denotes_iff]
      refine ⟨k, ar.objects r, here, HashLocPair.covers_iff.mpr (by omega), ?_⟩
      have same : (ar.objects r).offset + (x - k) + (y - x) = (ar.objects r).offset + (y - k) := by omega
      simp only [HashLocPair.piece, HashLocPair.clone, pos, int_int_add, same]
    · rename_i outside
      refine ⟨rfl, Option.eq_none_iff_forall_ne_some.mpr fun q denoted => ?_⟩
      obtain ⟨i, h, found, covered, -⟩ := (wf.denotes_iff x q).mp denoted
      obtain ⟨w, known, rfl⟩ := get_of_entry found
      rw [HashLocPair.covers_iff, wf.extents.keyed found] at covered
      rcases lt_or_eq_of_le (most i w known (by omega)) with lower | rfl
      · have apart := wf.extents.disjoint found here lower
        omega
      · cases Option.some.inj (known.symm.trans stored)
        omega

/-! ### Sequences of insertions -/

def insertAll (chunkLength : Int) (fuel : Nat) : Fingers → List HashLocPair → Outcome Fingers
  | ar, [] => .finished ar
  | ar, p :: ps =>
    match insertHashLocPair chunkLength fuel ar p with
    | .finished (ar', _) => insertAll chunkLength fuel ar' ps
    | .undefined => .undefined
    | .running => .running

def SafeAll (chunkLength : Int) : Fingers → List HashLocPair → Prop
  | _, [] => True
  | ar, p :: ps => Safe chunkLength ar p ∧
      ∀ fuel ar' e, insertHashLocPair chunkLength fuel ar p = .finished (ar', e) → SafeAll chunkLength ar' ps

/-- The latest extent counts that fits the chunk and covers the position. -/
def fittingCovers (chunkLength : Int) (p : HashLocPair) (x : Int) : Bool :=
  p.pos + p.nlen ≤ chunkLength && p.covers x

def contentsAfter (chunkLength : Int) (contents : Int → Option Piece) (ps : List HashLocPair) : Int → Option Piece :=
  latest (fittingCovers chunkLength) HashLocPair.piece contents ps

theorem insertAll_contents (small : chunkLength < 2 ^ 31) {ps : List HashLocPair} (wf : ar.WellFormed chunkLength)
    (extents : ∀ p ∈ ps, p.IsExtent) (safe : SafeAll chunkLength ar ps) {fuel : Nat}
    (enough : chunkLength.toNat ≤ fuel) :
    ∃ ar', insertAll chunkLength fuel ar ps = .finished ar' ∧ ar'.WellFormed chunkLength ∧
      ar'.denotes = ps.foldl (patch (fittingCovers chunkLength) HashLocPair.piece) ar.denotes := by
  induction ps generalizing ar with
  | nil => exact ⟨ar, rfl, wf, rfl⟩
  | cons p ps ih =>
    obtain ⟨extent, later⟩ := List.forall_mem_cons.mp extents
    have turn := insertsRight_of_safe small wf extent safe.1 fuel enough
    rw [insertAll, List.foldl_cons]
    split at turn
    · rename_i past
      obtain ⟨e, thrown⟩ := turn
      have skipped : patch (fittingCovers chunkLength) HashLocPair.piece ar.denotes p = ar.denotes := by
        funext x
        simp [patch, fittingCovers, not_le.mpr past]
      rw [thrown, skipped]
      exact ih wf later (safe.2 fuel ar _ thrown)
    · rename_i fits
      obtain ⟨ar', finished, wf', denotes⟩ := turn
      have patched : patch (fittingCovers chunkLength) HashLocPair.piece ar.denotes p = ar'.denotes := by
        rw [denotes]
        funext x
        simp [patch, fittingCovers, not_lt.mp fits]
      rw [finished, patched]
      exact ih wf' later (safe.2 fuel ar' _ finished)

/-- An insertion does what it is for exactly when it is in range and inside no extent, and after any
sequence of such insertions every position has the piece of the latest extent that covers it. -/
theorem insertsRight_iff_and_latest (positive : 0 < chunkLength) (small : chunkLength < 2 ^ 31)
    (wf : ar.WellFormed chunkLength) :
    (∀ p : HashLocPair, p.IsExtent → (InsertsRight chunkLength ar p ↔ Safe chunkLength ar p)) ∧
    ∀ ps : List HashLocPair, (∀ p ∈ ps, p.IsExtent) → SafeAll chunkLength ar ps →
      ∀ fuel, chunkLength.toNat ≤ fuel → ∃ ar', insertAll chunkLength fuel ar ps = .finished ar' ∧
        ar'.WellFormed chunkLength ∧
        ∀ x, Answers (contentsAfter chunkLength ar.denotes ps) x (ar'.getWL x) := by
  refine ⟨fun p extent => ⟨safe_of_insertsRight positive small wf extent, insertsRight_of_safe small wf extent⟩, ?_⟩
  intro ps extents safe fuel enough
  obtain ⟨ar', finished, wf', denotes⟩ := insertAll_contents small wf extents safe enough
  have contents : contentsAfter chunkLength ar.denotes ps = ar'.denotes := by
    rw [denotes, foldl_patch, contentsAfter]
  exact ⟨ar', finished, wf', fun x => contents ▸ wf'.getWL_answers small x⟩

def hundredBytes : HashLocPair := ⟨[1], [1], 100, 0, 0, 100, false, false⟩

def tenBytes (pos : Int) : HashLocPair := ⟨[2], [2], 10, pos, 0, 10, false, false⟩

def oneExtent : Fingers := empty.put 0 hundredBytes

theorem oneExtent_wellFormed : oneExtent.WellFormed 4096 := by
  refine ((empty_wellFormed 4096).put (p := hundredBytes) (by decide) (by decide) (by decide) ?_).1
  intro _ _ found
  cases found

theorem oneExtent_entry (k : Int) : oneExtent.entry k = if k = 0 then some hundredBytes else none :=
  entry_put (empty_wellFormed 4096).allocated 0 k hundredBytes

theorem insertsRight_iff_and_latest_oneExtent :
    (InsertsRight 4096 oneExtent (tenBytes 95) ↔ Safe 4096 oneExtent (tenBytes 95)) ∧
    ∃ ar', insertAll 4096 4096 oneExtent [tenBytes 95] = .finished ar' ∧ ar'.WellFormed 4096 ∧
      ∀ x, Answers (contentsAfter 4096 oneExtent.denotes [tenBytes 95]) x (ar'.getWL x) := by
  have both := @insertsRight_iff_and_latest 4096 _ (by decide) (by decide) oneExtent_wellFormed
  have extent : (tenBytes 95).IsExtent := by
    unfold HashLocPair.IsExtent
    decide
  have safe : Safe 4096 oneExtent (tenBytes 95) := by
    refine ⟨by decide, fun _ k h found _ => ?_⟩
    rw [oneExtent_entry] at found
    split at found
    · rename_i here
      rw [here, ← Option.some.inj found]
      decide
    · cases found
  refine ⟨both.1 _ extent, both.2 _ ?_ ?_ 4096 (by decide)⟩
  · intro p member
    rwa [List.mem_singleton.mp member]
  · exact ⟨safe, fun _ _ _ _ => trivial⟩

/-- What is behind an extent that is put inside another one is lost. -/
theorem insertsRight_middle :
    oneExtent.WellFormed 4096 ∧ (tenBytes 20).IsExtent ∧ ¬ InsertsRight 4096 oneExtent (tenBytes 20) ∧
      ∃ ar', insertHashLocPair 4096 4096 oneExtent (tenBytes 20) = .finished (ar', none) ∧
        ar'.getWL 50 = .error (.positionNotFound 50) := by
  have extent : (tenBytes 20).IsExtent := by
    unfold HashLocPair.IsExtent
    decide
  refine ⟨oneExtent_wellFormed, extent, fun right => ?_, _, rfl, rfl⟩
  have safe := safe_of_insertsRight (by decide) (by decide) oneExtent_wellFormed extent right
  exact absurd (safe.2 (by decide) 0 hundredBytes (oneExtent_entry 0) (by decide)) (by decide)

end Fingers

end EncryptedDedup.SDFS
