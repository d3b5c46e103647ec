import EncryptedDedup.Similarity.Clustering
import EncryptedDedup.Lib.Jaccard
import Mathlib.Algebra.Order.Ring.Nat

/-!
# The distance matrix

Every entry of the matrix is the Jaccard distance of the fingerprints of two segments.
-/

namespace EncryptedDedup.CSlice

/-! ### The distance of two segments -/

def fingerprints (histogram : Histogram) : Finset Fp := histogram.keys.toFinset

theorem card_fingerprints (histogram : Histogram) : (fingerprints histogram).card = histogram.entries.length := by
  rw [fingerprints, List.toFinset_card_of_nodup histogram.keys_nodup, OrderedMap.keys, List.length_map]

theorem fingerprints_merge (distI distJ : Histogram) :
    fingerprints (merge distI distJ) = fingerprints distI ∪ fingerprints distJ := by
  have put : merge distI distJ = distI.putAll (distJ.keys.map fun k => (k, 1)) := by
    rw [merge, OrderedMap.putAll, OrderedMap.keys, List.map_map, List.foldl_map]
    rfl
  ext k
  rw [fingerprints, Finset.mem_union, fingerprints, fingerprints, List.mem_toFinset, List.mem_toFinset,
    List.mem_toFinset, put, OrderedMap.mem_keys_putAll, List.map_map]
  have same : Prod.fst ∘ (fun k : Fp => (k, 1)) = id := rfl
  rw [same, List.map_id]

theorem length_merge (distI distJ : Histogram) :
    (merge distI distJ).entries.length = (fingerprints distI ∪ fingerprints distJ).card := by
  rw [← card_fingerprints, fingerprints_merge]

theorem ofLE_inj {b c : Bytes} (lengths : b.length = c.length) (same : ofLE b = ofLE c) : b = c := by
  induction b generalizing c with
  | nil => exact (List.eq_nil_of_length_eq_zero lengths.symm).symm
  | cons x b ih =>
    obtain ⟨y, c, rfl⟩ := List.exists_cons_of_length_pos (l := c) (by
      rw [← lengths]
      exact Nat.succ_pos _)
    have byteX := x.toNat_lt
    have byteY := y.toNat_lt
    rw [ofLE, ofLE] at same
    rw [UInt8.toNat.inj (show x.toNat = y.toNat by omega), ih (Nat.succ.inj lengths) (by omega)]

/-- There are not so many fingerprints of six bytes that a 64-bit counter overflows. -/
theorem card_lt (s : Finset Fp) : s.card < 2 ^ 63 := by
  have inside : s.card ≤ (Finset.range (256 ^ fpSize)).card := by
    apply Finset.card_le_card_of_injOn fun x => ofLE x.bytes
    · intro x _
      have bound := ofLE_lt x.bytes
      rw [x.size_eq] at bound
      exact Finset.mem_coe.mpr (Finset.mem_range.mpr bound)
    · intro x _ y _ same
      exact Fp.ext (ofLE_inj (x.size_eq.trans y.size_eq.symm) same)
  rw [Finset.card_range] at inside
  unfold fpSize at inside
  omega

theorem shared_eq (distI distJ : Histogram) :
    shared distI distJ = (fingerprints distI ∩ fingerprints distJ).card := by
  have cards := Finset.card_union_add_card_inter (fingerprints distI) (fingerprints distJ)
  have small := card_lt (fingerprints distI ∩ fingerprints distJ)
  unfold shared toU64
  rw [length_merge, ← card_fingerprints, ← card_fingerprints]
  omega

theorem shared_exact (distI distJ : Histogram) :
    distI.entries.length + distJ.entries.length < 2 ^ 64 ∧
      (merge distI distJ).entries.length ≤ distI.entries.length + distJ.entries.length := by
  have smallI := card_lt (fingerprints distI)
  have smallJ := card_lt (fingerprints distJ)
  have cards := Finset.card_union_add_card_inter (fingerprints distI) (fingerprints distJ)
  rw [length_merge, ← card_fingerprints, ← card_fingerprints]
  omega

theorem fingerprints_nonempty {histogram : Histogram} (filled : histogram.entries ≠ []) :
    (fingerprints histogram).Nonempty := by
  rw [← Finset.card_pos, card_fingerprints]
  exact List.length_pos_of_ne_nil filled

theorem distance_eq {distI distJ : Histogram} (filled : distI.entries ≠ []) :
    distance distI distJ = some (jaccard (fingerprints distI) (fingerprints distJ)) := by
  have inhabited : (fingerprints distI ∪ fingerprints distJ).card ≠ 0 :=
    ((fingerprints_nonempty filled).mono Finset.subset_union_left).card_pos.ne'
  unfold distance jaccard
  dsimp only
  rw [length_merge, if_neg inhabited, shared_eq]

/-! ### The matrix -/

def writesOf (segCount : Nat) (countMap : OrderedMap Nat Histogram) : List (Nat × Option ℚ) :=
  countMap.entries.flatMap fun segI => (countMap.entries.filter fun segJ => segI.1 ≤ segJ.1).flatMap fun segJ =>
    [(segI.1 * segCount + segJ.1, distance segI.2 segJ.2), (segJ.1 * segCount + segI.1, distance segI.2 segJ.2)]

theorem port2cluster_eq (segCount : Nat) (countMap : OrderedMap Nat Histogram) :
    port2cluster segCount countMap = OrderedMap.empty.putAll (writesOf segCount countMap) := by
  unfold port2cluster writesOf OrderedMap.putAll
  rw [List.foldl_flatMap]
  congr 1
  funext dist segI
  unfold writeRow
  rw [List.foldl_flatMap]
  rfl

def segment (countMap : OrderedMap Nat Histogram) (i : Nat) : Histogram := (countMap.get i).getD .empty

variable {n : Nat} {countMap : OrderedMap Nat Histogram}

theorem segment_of_mem {e : Nat × Histogram} (member : e ∈ countMap.entries) : segment countMap e.1 = e.2 := by
  rw [segment, (countMap.get_eq_some e.1 e.2).mpr member, Option.getD_some]

theorem mem_entries_of_lt (keys : countMap.keys = List.range n) {i : Nat} (below : i < n) :
    (i, segment countMap i) ∈ countMap.entries := by
  have known : i ∈ countMap.keys := by
    rw [keys]
    exact List.mem_range.mpr below
  obtain ⟨e, member, rfl⟩ := List.mem_map.mp known
  rw [segment_of_mem member]
  exact member

theorem lt_of_mem_entries (keys : countMap.keys = List.range n) {e : Nat × Histogram} (member : e ∈ countMap.entries) :
    e.1 < n := by
  have known : e.1 ∈ countMap.keys := List.mem_map_of_mem member
  rw [keys] at known
  exact List.mem_range.mp known

def distanceAt (n : Nat) (countMap : OrderedMap Nat Histogram) (x : Nat) : Option ℚ :=
  some (jaccard (fingerprints (segment countMap (x / n))) (fingerprints (segment countMap (x % n))))

theorem distanceAt_index {i j : Nat} (below : j < n) :
    distanceAt n countMap (i * n + j) =
      some (jaccard (fingerprints (segment countMap i)) (fingerprints (segment countMap j))) := by
  have positive : 0 < n := by omega
  have row : (i * n + j) / n = i := by
    rw [Nat.mul_comm, Nat.mul_add_div positive, Nat.div_eq_of_lt below, Nat.add_zero]
  have column : (i * n + j) % n = j := by
    rw [Nat.mul_comm, Nat.mul_add_mod, Nat.mod_eq_of_lt below]
  unfold distanceAt
  rw [row, column]

theorem writesOf_determined (keys : countMap.keys = List.range n) (filled : ∀ e ∈ countMap.entries, e.2.entries ≠ []) :
    ∀ w ∈ writesOf n countMap, w.2 = distanceAt n countMap w.1 := by
  intro w member
  unfold writesOf at member
  obtain ⟨segI, known, row⟩ := List.mem_flatMap.mp member
  obtain ⟨segJ, later, written⟩ := List.mem_flatMap.mp row
  have known' := (List.mem_filter.mp later).1
  have value := @distance_eq segI.2 segJ.2 (filled segI known)
  rw [← segment_of_mem known, ← segment_of_mem known'] at value
  rcases List.mem_cons.mp written with rfl | written
  · rw [distanceAt_index (lt_of_mem_entries keys known'), ← value, segment_of_mem known, segment_of_mem known']
  · obtain rfl := List.mem_singleton.mp written
    rw [distanceAt_index (lt_of_mem_entries keys known), jaccard_comm, ← value, segment_of_mem known,
      segment_of_mem known']

theorem mem_writesOf (keys : countMap.keys = List.range n) (x : Nat) :
    x ∈ (writesOf n countMap).map Prod.fst ↔ x < n * n := by
  have bound : ∀ i j, i < n → j < n → i * n + j < n * n := by
    intro i j row column
    calc i * n + j < i * n + n := by omega
      _ = (i + 1) * n := by rw [Nat.add_mul, Nat.one_mul]
      _ ≤ n * n := Nat.mul_le_mul_right n row
  constructor
  · intro member
    obtain ⟨w, written, rfl⟩ := List.mem_map.mp member
    unfold writesOf at written
    obtain ⟨segI, known, row⟩ := List.mem_flatMap.mp written
    obtain ⟨segJ, later, pair⟩ := List.mem_flatMap.mp row
    have belowI := lt_of_mem_entries keys known
    have belowJ := lt_of_mem_entries keys (List.mem_filter.mp later).1
    rcases List.mem_cons.mp pair with rfl | pair
    · exact bound _ _ belowI belowJ
    · obtain rfl := List.mem_singleton.mp pair
      exact bound _ _ belowJ belowI
  · intro below
    have positive : 0 < n := Nat.pos_of_ne_zero fun zero => by
      rw [zero] at below
      exact absurd below (Nat.not_lt_zero x)
    have row : x / n < n := Nat.div_lt_of_lt_mul below
    have column : x % n < n := Nat.mod_lt x positive
    have index : x / n * n + x % n = x := by
      rw [Nat.mul_comm]
      exact Nat.div_add_mod x n
    -- the upper triangle is reached by the first write of a pair, the lower one by the second
    have reached : ∀ i j, i ≤ j → j < n → ∀ w, w ∈ [(i * n + j, distance (segment countMap i) (segment countMap j)),
        (j * n + i, distance (segment countMap i) (segment countMap j))] → w ∈ writesOf n countMap := by
      intro i j ordered below w written
      refine List.mem_flatMap.mpr ⟨_, mem_entries_of_lt keys (i := i) (by omega), List.mem_flatMap.mpr ?_⟩
      exact ⟨(j, segment countMap j), List.mem_filter.mpr ⟨mem_entries_of_lt keys below, decide_eq_true ordered⟩, written⟩
    rw [← index]
    rcases le_total (x / n) (x % n) with upper | lower
    · exact List.mem_map_of_mem (reached (x / n) (x % n) upper column _ List.mem_cons_self)
    · exact List.mem_map_of_mem
        (reached (x % n) (x / n) lower row _ (List.mem_cons_of_mem _ (List.mem_singleton_self _)))

structure Distances (n : Nat) (countMap : OrderedMap Nat Histogram) (dist : Matrix) : Prop where
  written : ∀ x, x ∈ dist.keys ↔ x < n * n
  entries : ∀ i < n, ∀ j < n, dist.get (i * n + j) =
    some (some (jaccard (fingerprints (segment countMap i)) (fingerprints (segment countMap j))))

theorem port2cluster_distances (keys : countMap.keys = List.range n)
    (filled : ∀ e ∈ countMap.entries, e.2.entries ≠ []) : Distances n countMap (port2cluster n countMap) := by
  rw [port2cluster_eq]
  refine ⟨fun x => ?_, fun i row j column => ?_⟩
  · rw [OrderedMap.mem_keys_putAll, mem_writesOf keys]
    exact or_iff_right List.not_mem_nil
  · have inside : i * n + j < n * n := by
      calc i * n + j < i * n + n := by omega
        _ = (i + 1) * n := by rw [Nat.add_mul, Nat.one_mul]
        _ ≤ n * n := Nat.mul_le_mul_right n row
    rw [OrderedMap.get_putAll_of_eq (writesOf_determined keys filled) ((mem_writesOf keys _).mpr inside),
      distanceAt_index column]

/-- The distances of the segments: every entry is written, with the Jaccard distance of two segments, which
is symmetric, between 0 and 1, and 0 for segments with the same fingerprints alone. -/
theorem port2cluster_jaccard (keys : countMap.keys = List.range n)
    (filled : ∀ e ∈ countMap.entries, e.2.entries ≠ []) :
    (∀ x, x ∈ (port2cluster n countMap).keys ↔ x < n * n) ∧
      (∀ i < n, ∀ j < n, ∃ d, (port2cluster n countMap).get (i * n + j) = some (some d) ∧
        (port2cluster n countMap).get (j * n + i) = some (some d) ∧
        d = 1 - ((fingerprints (segment countMap i) ∩ fingerprints (segment countMap j)).card : ℚ) /
          (fingerprints (segment countMap i) ∪ fingerprints (segment countMap j)).card ∧
        (i = j → d = 0) ∧ 0 ≤ d ∧ d ≤ 1 ∧
        (d = 0 ↔ fingerprints (segment countMap i) = fingerprints (segment countMap j))) ∧
      ∀ e ∈ countMap.entries, ∀ e' ∈ countMap.entries, e.2.entries.length + e'.2.entries.length < 2 ^ 64 ∧
        (merge e.2 e'.2).entries.length ≤ e.2.entries.length + e'.2.entries.length := by
  obtain ⟨written, entries⟩ := port2cluster_distances keys filled
  refine ⟨written, fun i row j column => ?_, fun e _ e' _ => shared_exact e.2 e'.2⟩
  have inhabited : (fingerprints (segment countMap i)).Nonempty :=
    fingerprints_nonempty (filled _ (mem_entries_of_lt keys row))
  refine ⟨_, entries i row j column, ?_, rfl, ?_, jaccard_nonneg _ _, jaccard_le_one _ _, jaccard_eq_zero inhabited⟩
  · rw [entries j column i row, jaccard_comm]
  · rintro rfl
    exact jaccard_self inhabited

def twoSegments : OrderedMap Nat Histogram :=
  (OrderedMap.empty.put 0 ((OrderedMap.empty.put (Fp.ofBytes [1]) 2).put (Fp.ofBytes [2]) 1)).put 1
    ((OrderedMap.empty.put (Fp.ofBytes [2]) 4).put (Fp.ofBytes [3]) 1)

theorem port2cluster_jaccard_twoSegments :
    (∀ x, x ∈ (port2cluster 2 twoSegments).keys ↔ x < 2 * 2) ∧
      (∀ i < 2, ∀ j < 2, ∃ d, (port2cluster 2 twoSegments).get (i * 2 + j) = some (some d) ∧
        (port2cluster 2 twoSegments).get (j * 2 + i) = some (some d) ∧
        d = 1 - ((fingerprints (segment twoSegments i) ∩ fingerprints (segment twoSegments j)).card : ℚ) /
          (fingerprints (segment twoSegments i) ∪ fingerprints (segment twoSegments j)).card ∧
        (i = j → d = 0) ∧ 0 ≤ d ∧ d ≤ 1 ∧
        (d = 0 ↔ fingerprints (segment twoSegments i) = fingerprints (segment twoSegments j))) ∧
      ∀ e ∈ twoSegments.entries, ∀ e' ∈ twoSegments.entries, e.2.entries.length + e'.2.entries.length < 2 ^ 64 ∧
        (merge e.2 e'.2).entries.length ≤ e.2.entries.length + e'.2.entries.length :=
  port2cluster_jaccard (by decide +kernel) (by decide +kernel)

end EncryptedDedup.CSlice
