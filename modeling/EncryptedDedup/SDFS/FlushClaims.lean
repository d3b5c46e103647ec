import EncryptedDedup.SDFS.RecordCodec
import EncryptedDedup.SDFS.WriteCache

/-!
# The claims of the fingers

`writeCache` claims every chunk as often as the new extents refer to it.
-/

namespace EncryptedDedup.SDFS

theorem Fingers.values_ofValues {ps : List HashLocPair} (ascending : SparseDataChunk.Ascending ps) : (ofValues ps).values = ps :=
  SparseDataChunk.values_putAll ascending (fun found => nomatch found) fun _ member => absurd member List.not_mem_nil

namespace Services

variable {σ : Type} {V : Services σ} {fs : List Finger} {hls : Bytes → Option InsertRecord}

def timesHashed (fs : List Finger) (hash : Bytes) : Nat := fs.countP fun f => f.hash = hash

theorem timesHashed_concat (fs : List Finger) (f : Finger) (hash : Bytes) :
    timesHashed (fs ++ [f]) hash = timesHashed fs hash + if f.hash = hash then 1 else 0 := by
  unfold timesHashed
  rw [List.countP_append, List.countP_singleton]
  simp

theorem countFingers_concat (fs : List Finger) (f : Finger) :
    countFingers (fs ++ [f]) = countFinger (countFingers fs) f := by
  unfold countFingers
  rw [List.foldl_append]
  rfl

theorem get_countFingers (fs : List Finger) (hash : Bytes) :
    (timesHashed fs hash = 0 ∧ (countFingers fs).get hash = none) ∨
      ∃ f, f.hash = hash ∧ 0 < timesHashed fs hash ∧ (countFingers fs).get hash = some (f, (timesHashed fs hash : Int)) := by
  induction fs using List.reverseRecOn with
  | nil => exact .inl ⟨rfl, rfl⟩
  | append_singleton fs g ih =>
    rw [countFingers_concat, timesHashed_concat, countFinger]
    by_cases same : g.hash = hash
    · subst same
      rw [OrderedMap.get_put_same, if_pos rfl]
      rcases ih with ⟨none_, absent⟩ | ⟨f, own, -, there⟩
      · rw [absent, none_]
        exact .inr ⟨g, rfl, Nat.one_pos, rfl⟩
      · rw [there]
        exact .inr ⟨f, own, Nat.succ_pos _, rfl⟩
    · rw [OrderedMap.get_put_other _ _ (Ne.symm same), if_neg same, Nat.add_zero]
      exact ih

theorem mem_countFingers {e : Finger × Int} (member : e ∈ (countFingers fs).entries.map Prod.snd) :
    e.2 = (timesHashed fs e.1.hash : Int) ∧ 0 < timesHashed fs e.1.hash := by
  obtain ⟨⟨hash, e⟩, listed, rfl⟩ := List.mem_map.mp member
  have there := (OrderedMap.get_eq_some _ _ _).mpr listed
  rcases get_countFingers fs hash with ⟨-, absent⟩ | ⟨f, rfl, positive, counted⟩
  · rw [absent] at there
    cases there
  · rw [counted] at there
    obtain rfl := Option.some.inj there
    exact ⟨rfl, positive⟩

theorem hashes_countFingers (fs : List Finger) :
    ((countFingers fs).entries.map Prod.snd).map (fun e => e.1.hash) = (countFingers fs).keys := by
  unfold OrderedMap.keys
  rw [List.map_map]
  refine List.map_congr_left fun e member => ?_
  have there := (OrderedMap.get_eq_some _ _ _).mpr member
  rcases get_countFingers fs e.1 with ⟨-, absent⟩ | ⟨f, own, -, counted⟩
  · rw [absent] at there
    cases there
  · rw [counted] at there
    dsimp only [Function.comp]
    rw [← Option.some.inj there]
    exact own

/-- How often the records of the fingers refer to a chunk. -/
def placed (hls : Bytes → Option InsertRecord) (fs : List Finger) (k : Bytes × Bytes) : Nat :=
  if (hls k.1).map InsertRecord.hashlocs = some k.2 then timesHashed fs k.1 else 0

theorem placed_cons {f : Finger} {hl : InsertRecord} (known : hls f.hash = some hl) (fs : List Finger) (k : Bytes × Bytes) :
    placed hls (f :: fs) k = placed hls fs k + if (f.hash, hl.hashlocs) = k then 1 else 0 := by
  unfold placed timesHashed
  rw [List.countP_cons]
  by_cases same : f.hash = k.1
  · rw [← same, known, Option.map_some]
    by_cases here : hl.hashlocs = k.2
    · have whole : (f.hash, hl.hashlocs) = k := Prod.ext same here
      rw [if_pos whole, here, if_pos rfl]
      simp
    · have other : (f.hash, hl.hashlocs) ≠ k := fun whole => here (congrArg Prod.snd whole)
      rw [if_neg other]
      simp [here]
  · have other : (f.hash, hl.hashlocs) ≠ k := fun whole => same (congrArg Prod.fst whole)
    rw [if_neg other]
    simp [same]

theorem placed_update {hash : Bytes} (unknown : hls hash = none) (hl : InsertRecord) (fs : List Finger) (k : Bytes × Bytes) :
    placed (Function.update hls hash (some hl)) fs k =
      placed hls fs k + if k = (hash, hl.hashlocs) then timesHashed fs hash else 0 := by
  unfold placed
  by_cases same : k.1 = hash
  · rw [same, unknown, Function.update_self]
    by_cases here : hl.hashlocs = k.2
    · have whole : k = (hash, hl.hashlocs) := Prod.ext same here.symm
      rw [if_pos whole]
      simp [here]
    · have other : k ≠ (hash, hl.hashlocs) := fun whole => here (congrArg Prod.snd whole).symm
      rw [if_neg other]
      simp [here]
  · have other : k ≠ (hash, hl.hashlocs) := fun whole => same (congrArg Prod.fst whole)
    rw [if_neg other, Function.update_of_ne same, Nat.add_zero]

theorem writeFingers_claims {es : List (Finger × Int)}
    (counted : ∀ e ∈ es, e.2 = (timesHashed fs e.1.hash : Int) ∧ 0 < timesHashed fs e.1.hash)
    (distinct : (es.map fun e => e.1.hash).Nodup) {s s' : σ × Claims}
    (written : V.writeFingers s es = some (s', hls)) :
    (∀ hash, (hls hash).isSome ↔ hash ∈ es.map fun e => e.1.hash) ∧
      ∀ k, s'.2 k = s.2 k + placed hls fs k := by
  induction es generalizing s hls with
  | nil =>
    obtain ⟨rfl, rfl⟩ := Prod.mk.inj (Option.some.inj written)
    exact ⟨fun hash => by simp, fun k => by simp [placed]⟩
  | cons e es ih =>
    obtain ⟨f, claims⟩ := e
    obtain ⟨own, others⟩ := List.forall_mem_cons.mp counted
    rw [List.map_cons, List.nodup_cons] at distinct
    obtain ⟨alone, distinct⟩ := distinct
    rw [writeFingers] at written
    obtain ⟨⟨store, hl⟩, wrote, written⟩ := Option.bind_eq_some_iff.mp written
    obtain ⟨⟨s₁, hls₁⟩, rest, written⟩ := Option.bind_eq_some_iff.mp written
    obtain ⟨rfl, rfl⟩ := Prod.mk.inj (Option.some.inj written)
    obtain ⟨known, claimed⟩ := ih others distinct rest
    refine ⟨fun hash => ?_, fun k => ?_⟩
    · rw [List.map_cons, List.mem_cons, ← known hash]
      by_cases same : hash = f.hash
      · subst same
        rw [Function.update_self]
        exact iff_of_true rfl (.inl rfl)
      · rw [Function.update_of_ne same]
        exact ⟨.inr, fun either => either.resolve_left same⟩
    · have unknown : hls₁ f.hash = none := by
        rw [← Option.not_isSome_iff_eq_none, known]
        exact alone
      have claims_ : RocksDBMap.claims claims = timesHashed fs f.hash := by
        have positive := own.2
        have same : claims = timesHashed fs f.hash := own.1
        rw [RocksDBMap.claims, if_neg (by omega), same]
      rw [claimed, claims_, placed_update unknown]
      dsimp only
      by_cases here : k = (f.hash, hl.hashlocs)
      · rw [if_pos here, here, Function.update_self]
        push_cast
        ring
      · rw [if_neg here, Function.update_of_ne here, Nat.add_zero]

theorem addRefs_counted (claims : Claims) (ct : RefCounts) {h : HashLocPair} (counted : V.counts h = true) :
    V.addRefs claims ct h.chunk = claims h.chunk + (ct h.chunk).getD 0 := if_pos counted

theorem layFingers_spec {fs : List Finger} (filled : ∀ f ∈ fs, 0 < f.len) {seen : List Bytes} {start : Int}
    {ps : List HashLocPair} (laid : layFingers hls seen start fs = some ps) :
    SparseDataChunk.Ascending ps ∧ (∀ p ∈ ps, start ≤ p.pos) ∧ ∀ k, references k ps = placed hls fs k := by
  induction fs generalizing seen start ps with
  | nil =>
    obtain rfl := Option.some.inj laid
    exact ⟨List.Pairwise.nil, fun _ member => absurd member List.not_mem_nil, fun k => by simp [placed, timesHashed]⟩
  | cons f fs ih =>
    obtain ⟨own, others⟩ := List.forall_mem_cons.mp filled
    rw [layFingers] at laid
    obtain ⟨hl, known, laid⟩ := Option.bind_eq_some_iff.mp laid
    obtain ⟨rest, later, laid⟩ := Option.bind_eq_some_iff.mp laid
    obtain rfl := Option.some.inj laid
    obtain ⟨ascending, behind, counts⟩ := ih others later
    refine ⟨List.pairwise_cons.mpr ⟨fun p member => ?_, ascending⟩, List.forall_mem_cons.mpr ⟨le_refl _, fun p member => ?_⟩,
      fun k => ?_⟩
    · exact (Int.lt_add_of_pos_right start own).trans_le (behind p member)
    · exact (Int.le_of_lt (Int.lt_add_of_pos_right start own)).trans (behind p member)
    · rw [references_cons, counts, HashLocPair.chunk, placed_cons known]

end Services

end EncryptedDedup.SDFS
