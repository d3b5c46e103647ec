import EncryptedDedup.SingleStream.CountResults
import EncryptedDedup.SingleStream.KMinhash
import EncryptedDedup.SingleStream.Neighbours

/-!
# Counting an encrypted trace

`locality_count` counts what `k_minhash` has written as it counts the trace, with every fingerprint replaced.
-/

namespace EncryptedDedup.LocalityCount

/-! ### Neighbours of renamed chunks -/

variable {E : Fp → Fp} {trace : List Fp}

/-- Different chunks of the trace stay different. -/
def Separates (E : Fp → Fp) (trace : List Fp) : Prop := ∀ x ∈ trace, ∀ y ∈ trace, E x = E y → x = y

theorem adjacent_map (E : Fp → Fp) (trace : List Fp) : adjacent (trace.map E) = (adjacent trace).map (Prod.map E E) := by
  unfold adjacent
  rw [← List.map_tail, List.zip_map]

theorem mem_adjacent {p : Fp × Fp} (member : p ∈ adjacent trace) : p.1 ∈ trace ∧ p.2 ∈ trace := by
  have both := List.of_mem_zip (show (p.1, p.2) ∈ trace.zip trace.tail from member)
  exact ⟨both.1, List.mem_of_mem_tail both.2⟩

theorem predecessors_map {pairs : List (Fp × Fp)} {x : Fp} (separates : ∀ p ∈ pairs, E p.2 = E x → p.2 = x) :
    predecessors (pairs.map (Prod.map E E)) (E x) = (predecessors pairs x).map E := by
  unfold predecessors
  rw [List.filter_map, List.map_map, List.map_map]
  congr 1
  refine List.filter_congr fun p member => ?_
  exact decide_eq_decide.mpr ⟨separates p member, congrArg E⟩

theorem successors_map {pairs : List (Fp × Fp)} {x : Fp} (separates : ∀ p ∈ pairs, E p.1 = E x → p.1 = x) :
    successors (pairs.map (Prod.map E E)) (E x) = (successors pairs x).map E := by
  have mirrored : (pairs.map (Prod.map E E)).map Prod.swap = (pairs.map Prod.swap).map (Prod.map E E) := by
    rw [List.map_map, List.map_map]
    rfl
  rw [successors_eq, successors_eq, mirrored]
  refine predecessors_map fun p member => ?_
  obtain ⟨q, inside, rfl⟩ := List.mem_map.mp member
  exact separates q inside

theorem count_map {x : Fp} (separates : ∀ y ∈ trace, E y = E x → y = x) : (trace.map E).count (E x) = trace.count x := by
  unfold List.count
  rw [List.countP_map]
  refine List.countP_congr fun y member => ?_
  simp only [Function.comp_apply, beq_iff_eq]
  exact ⟨separates y member, congrArg E⟩

/-! ### Tables of renamed chunks -/

/-- The fingerprints survive a C string, the chunks of the trace stay different, and the tables are not too long. -/
structure Encryptable (E : Fp → Fp) (trace : List Fp) : Prop where
  separates : Separates E trace
  safe : ∀ x ∈ trace, StringSafe x ∧ StringSafe (E x)
  fits : Fits (adjacent trace)

theorem tally_assigned {ys : List Fp} (safe : ∀ y ∈ ys, StringSafe y) :
    tally (ys.map assigned) = (tally ys).map (Prod.map Fp.bytes id) := by
  rw [map_assigned safe]
  exact tally_map fun _ _ _ _ => Fp.ext

theorem records_assigned {ys : List Fp} (safe : ∀ y ∈ ys, StringSafe y) :
    records (tally (ys.map assigned)) = (tally ys).map (Prod.map id (· % 2 ^ 64)) := by
  rw [tally_assigned safe]
  unfold records
  rw [List.map_map]
  refine List.map_congr_left fun e _ => ?_
  exact Prod.ext (Fp.ofBytes_bytes e.1) rfl

theorem records_map {ys : List Fp} (separates : Separates E ys) (safe : ∀ y ∈ ys, StringSafe y ∧ StringSafe (E y)) :
    records (tally ((ys.map E).map assigned)) = (records (tally (ys.map assigned))).map (Prod.map E id) := by
  have image : ∀ y ∈ ys.map E, StringSafe y := by
    intro y member
    obtain ⟨x, inside, rfl⟩ := List.mem_map.mp member
    exact (safe x inside).2
  rw [records_assigned image, records_assigned fun y member => (safe y member).1, tally_map separates, List.map_map, List.map_map]
  rfl

theorem Encryptable.left (encryptable : Encryptable E trace) {x : Fp} (member : x ∈ trace) :
    records (leftTable (adjacent (trace.map E)) (E x)) = (records (leftTable (adjacent trace) x)).map (Prod.map E id) := by
  have inside : ∀ y ∈ predecessors (adjacent trace) x, y ∈ trace := fun y near => (mem_adjacent (mem_predecessors.mp near)).1
  unfold leftTable
  rw [adjacent_map, predecessors_map fun p near => encryptable.separates p.2 (mem_adjacent near).2 x member]
  exact records_map (fun a near b near' => encryptable.separates a (inside a near) b (inside b near'))
    fun y near => encryptable.safe y (inside y near)

theorem Encryptable.right (encryptable : Encryptable E trace) {x : Fp} (member : x ∈ trace) :
    records (rightTable (adjacent (trace.map E)) (E x)) = (records (rightTable (adjacent trace) x)).map (Prod.map E id) := by
  have inside : ∀ y ∈ successors (adjacent trace) x, y ∈ trace := fun y near => (mem_adjacent (mem_successors.mp near)).2
  unfold rightTable
  rw [adjacent_map, successors_map fun p near => encryptable.separates p.1 (mem_adjacent near).1 x member]
  exact records_map (fun a near b near' => encryptable.separates a (inside a near) b (inside b near'))
    fun y near => encryptable.safe y (inside y near)

theorem tables_of_not_mem {y : Fp} (absent : y ∉ trace) :
    leftTable (adjacent trace) y = [] ∧ rightTable (adjacent trace) y = [] := by
  have left : predecessors (adjacent trace) y = [] :=
    List.eq_nil_iff_forall_not_mem.mpr fun z near => absent (mem_adjacent (mem_predecessors.mp near)).2
  have right : successors (adjacent trace) y = [] :=
    List.eq_nil_iff_forall_not_mem.mpr fun z near => absent (mem_adjacent (mem_successors.mp near)).1
  unfold leftTable rightTable
  rw [left, right]
  exact ⟨rfl, rfl⟩

theorem fits_of_length {pairs : List (Fp × Fp)} (few : pairs.length ≤ recordLimit) : Fits pairs := by
  have short (ys : List Fp) : (tally (ys.map assigned)).length ≤ ys.length := by
    rw [length_tally, ← List.length_map (f := assigned)]
    exact (List.dedup_sublist _).length_le
  intro x
  unfold leftTable rightTable
  refine ⟨(short _).trans (le_trans ?_ few), (short _).trans (le_trans ?_ few)⟩
  · rw [predecessors, List.length_map]
    exact List.length_filter_le _ _
  · rw [successors, List.length_map]
    exact List.length_filter_le _ _

theorem Encryptable.fits_map (encryptable : Encryptable E trace) : Fits (adjacent (trace.map E)) := by
  intro y
  by_cases image : y ∈ trace.map E
  · obtain ⟨x, member, rfl⟩ := List.mem_map.mp image
    have length (t : Table) : (records t).length = t.length := List.length_map _
    rw [← length, ← length (rightTable _ _), encryptable.left member, encryptable.right member, List.length_map, List.length_map,
      length, length]
    exact encryptable.fits x
  · obtain ⟨left, right⟩ := tables_of_not_mem image
    rw [left, right]
    exact ⟨Nat.zero_le _, Nat.zero_le _⟩

/-! ### The image of a count -/

/-- The databases `s'` are those of `s` with `E` applied to every fingerprint of the trace, keys and records alike. -/
structure Image (E : Fp → Fp) (trace : List Fp) (s s' : Databases) : Prop where
  frequency : ∀ x ∈ trace, s'.db.get (E x) = s.db.get x
  left : ∀ x ∈ trace, tableOf s'.storeLeft (E x) = (tableOf s.storeLeft x).map (·.map (Prod.map E id))
  right : ∀ x ∈ trace, tableOf s'.storeRight (E x) = (tableOf s.storeRight x).map (·.map (Prod.map E id))
  others : ∀ y, y ∉ trace.map E → s'.db.get y = none ∧ s'.storeLeft.get y = none ∧ s'.storeRight.get y = none

theorem Represents.image (encryptable : Encryptable E trace) {s s' : Databases} (represents : Represents trace (adjacent trace) s)
    (represents' : Represents (trace.map E) (adjacent (trace.map E)) s') : Image E trace s s' where
  frequency x member := by
    rw [represents'.frequency, represents.frequency, count_map fun y inside => encryptable.separates y inside x member]
  left x member := by
    rw [represents'.tableOf_left, represents.tableOf_left, encryptable.left member, Option.map_some]
  right x member := by
    rw [represents'.tableOf_right, represents.tableOf_right, encryptable.right member, Option.map_some]
  others y absent := by
    obtain ⟨left, right⟩ := tables_of_not_mem absent
    rw [represents'.frequency, represents'.left, represents'.right, left, right,
      if_pos (List.count_eq_zero_of_not_mem absent)]
    exact ⟨rfl, rfl, rfl⟩

theorem feed_represents {fp : Bytes} (fits : Fits (adjacent (traceOf fp))) :
    ∃ s, feed [fp] = some s ∧ Represents (traceOf fp) (adjacent (traceOf fp)) s := by
  have computes := feed_computes [fp]
  simp only [List.map_cons, List.map_nil, List.flatten_cons, List.flatten_nil, List.append_nil, adjacents, List.flatMap_cons,
    List.flatMap_nil] at computes
  exact computes.1 fits

end LocalityCount

open LocalityCount

/-- Counting what `k_minhash` has written gives the image of what counting the trace gives, and the `relate` database leads back
from every encrypted chunk. -/
theorem KMinhash.feed_main (md5 : Fp → Fp → Fp) (relate : OrderedMap Fp Bytes) {fp : Bytes} (sized : Sized (bufferLines 256 fp))
    (encryptable : Encryptable (fun x => md5 x x) (traceOf fp)) :
    ∃ t s s', main md5 relate fp = some t ∧ feed [fp] = some s ∧ feed [t.out] = some s' ∧
      Image (fun x => md5 x x) (traceOf fp) s s' ∧ ∀ x ∈ traceOf fp, t.relate.get (md5 x x) = some x.bytes := by
  obtain ⟨t, run, related, printed⟩ := main_printed sized relate
  obtain ⟨s, counted, represents⟩ := feed_represents encryptable.fits
  have fits := encryptable.fits_map
  rw [← printed] at fits
  obtain ⟨s', counted', represents'⟩ := feed_represents fits
  rw [printed] at represents'
  refine ⟨t, s, s', run, counted, counted', represents.image encryptable represents', fun x member => ?_⟩
  rw [related]
  exact recorded_get encryptable.separates relate member

namespace KMinhash

def digest (x y : Fp) : Fp :=
  if x = Fp.ofBytes [1] ∧ y = x then Fp.ofBytes [123, 239, 159, 239, 106, 115]
  else if x = Fp.ofBytes [2] ∧ y = x then Fp.ofBytes [108, 216, 166, 139, 220, 112]
  else x

def untiedTrace : Bytes := Attack.traceFile "1112"

theorem traceOf_untiedTrace : traceOf untiedTrace = [Fp.ofBytes [1], Fp.ofBytes [1], Fp.ofBytes [1], Fp.ofBytes [2]] := by
  decide +kernel

theorem encryptable_untiedTrace : Encryptable (fun x => digest x x) (traceOf untiedTrace) := by
  rw [traceOf_untiedTrace]
  refine ⟨by unfold Separates; decide +kernel, fun x member => ?_, fits_of_length (by decide +kernel)⟩
  have safe : ∀ x ∈ [Fp.ofBytes [1], Fp.ofBytes [1], Fp.ofBytes [1], Fp.ofBytes [2]],
      assigned x = x.bytes ∧ assigned (digest x x) = (digest x x).bytes := by decide +kernel
  rw [← assigned_eq_iff, ← assigned_eq_iff]
  exact safe x member

theorem sized_untiedTrace : Sized (bufferLines 256 untiedTrace) := by
  unfold Sized
  decide +kernel

theorem feed_main_untiedTrace : ∃ t s s', main digest .empty untiedTrace = some t ∧ feed [untiedTrace] = some s ∧
    feed [t.out] = some s' ∧ Image (fun x => digest x x) (traceOf untiedTrace) s s' ∧
      ∀ x ∈ traceOf untiedTrace, t.relate.get (digest x x) = some x.bytes :=
  feed_main digest .empty sized_untiedTrace encryptable_untiedTrace

end KMinhash

end EncryptedDedup
