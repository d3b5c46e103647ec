import EncryptedDedup.SDFS.SimpleMapRun

/-!
# Iteration over a `SimpleByteArrayLongMap`

What `iterInit` and `next` list: the puts of the session if there are any, and the records of the file otherwise.
-/

namespace EncryptedDedup.SDFS.SimpleByteArrayLongMap
open OpenAddressing (Slot)

variable {T : Layout} {O : HashOrder} {s s' : State} {key : Bytes} {i : Nat}

/-- Every run of calls. -/
inductive History (T : Layout) (O : HashOrder) : State → Prop
  | new : History T O (setUp T.hashLength T.size T.version none)
  | step {s op} : History T O s → op.Plain T → History T O (step T.hashLength s O op)

/-! ### What is listed -/

def itemAt (T : Layout) (s : State) (i : Nat) : Option (Bytes × Int) :=
  match slotAt T s i with
  | .held key => some (key, valueAt T.hashLength s (i * T.el))
  | _ => none

/-- Behind a header the loop makes one turn more, which finds the record of the last slot in the buffer. -/
def turns (T : Layout) : Nat := if T.version = 0 then T.size else T.size + 1

def scan (T : Layout) (s : State) : List (Bytes × Int) :=
  (List.range (turns T)).filterMap fun i => itemAt T s (min i (T.size - 1))

def listed (T : Layout) (O : HashOrder) (s : State) : List (Bytes × Int) :=
  match s.bw with
  | some (e :: es) => O.order (e :: es)
  | _ => scan T s

/-- Every record once, and nothing else. -/
structure Lists (T : Layout) (s : State) (l : List (Bytes × Int)) : Prop where
  nodup : l.Nodup
  complete : ∀ key value, (key, value) ∈ l ↔ IsKey T key ∧ contents T s key = some value

/-- An iteration lists the records, and `getHashes` their keys. -/
def Enumerates (T : Layout) (O : HashOrder) (s : State) : Prop :=
  ∃ l t, enumerate T.hashLength s O = .finished (.ok l, t) ∧ Lists T s l ∧
    ∃ hashes, getHashes T.hashLength s O = .finished (.ok hashes) ∧ hashes.Nodup ∧
      ∀ key, key ∈ hashes ↔ IsKey T key ∧ (contents T s key).isSome

/-- If the session has put anything, it has put everything that is stored; otherwise the file has no header, or
nothing in its last slot. -/
def Complete (T : Layout) (s : State) : Prop :=
  ∀ l, s.bw = some l →
    if l = [] then T.version = 0 ∨ slotAt T s (T.size - 1) = .free
    else ∀ key, IsKey T key → (contents T s key).isSome → key ∈ l.map Prod.fst

/-! ### Sessions -/

/-- What the session has put is stored, and there is an iterator over it only if there is anything. -/
structure Session (T : Layout) (s : State) : Prop where
  sound : Sound T s
  nodup : ∀ l, s.bw = some l → (l.map Prod.fst).Nodup
  stored : ∀ l, s.bw = some l → ∀ e ∈ l, IsKey T e.1 ∧ contents T s e.1 = some e.2
  opened : s.closed = false → ∃ l, s.bw = some l
  idle : s.bw = some [] → s.iter = none

theorem Session.fresh (sound : Sound T s) (bw : s.bw = some []) (iter : s.iter = none) : Session T s := by
  refine ⟨sound, fun l same => ?_, fun l same e member => ?_, fun _ => ⟨[], bw⟩, fun _ => iter⟩
  · obtain rfl := Option.some.inj (bw.symm.trans same)
    exact List.nodup_nil
  · obtain rfl := Option.some.inj (bw.symm.trans same)
    exact absurd member List.not_mem_nil

theorem Session.undisturbed (session : Session T s) (same : Undisturbed s s') : Session T s' := by
  obtain ⟨sound', kept⟩ := same.sound session.sound
  refine ⟨sound', fun l bw => session.nodup l (same.bw ▸ bw), fun l bw e member => ?_, fun opened => ?_, fun empty => ?_⟩
  · obtain ⟨plain, value⟩ := session.stored l (same.bw ▸ bw) e member
    exact ⟨plain, (kept e.1 plain).trans value⟩
  · rw [same.bw]
    exact session.opened (same.closed ▸ opened)
  · rw [same.bw] at empty
    exact same.idle empty (session.idle empty)

theorem Session.put (session : Session T s) (plain : IsKey T key) {value : Int} (fits : Fits T value) :
    Session T (put T.hashLength s key value).1 := by
  cases opened : s.closed with
  | true =>
    rw [put_closed opened]
    exact session
  | false =>
    by_cases known : ∃ i, StoredAt T s key i
    · obtain ⟨i, stored⟩ := known
      rw [put_stored session.sound plain opened stored]
      exact session
    · have absent := not_exists.mp known
      rcases put_absent session.sound plain opened absent value with ⟨i, result, vacant, -⟩ | ⟨result, -⟩ | ⟨result, -⟩
      · rw [result]
        obtain ⟨own, others⟩ := written_contents session.sound plain absent vacant fits
        have nothing := contents_absent session.sound plain absent
        have entries : ∀ l, (written T s key value i).bw = some l → ∃ before, s.bw = some before ∧
            l = before ++ [(key, value)] ∧ ∀ e ∈ before, e.1 ≠ key := by
          intro l bw
          obtain ⟨before, there, rfl⟩ := Option.map_eq_some_iff.mp bw
          have apart : ∀ e ∈ before, e.1 ≠ key := by
            rintro e member rfl
            rw [(session.stored before there e member).2] at nothing
            cases nothing
          refine ⟨before, there, ?_, apart⟩
          rw [putEntry, List.filter_eq_self.mpr fun e member => decide_eq_true (apart e member)]
        refine ⟨session.sound.written plain absent vacant value, fun l bw => ?_, fun l bw e member => ?_,
          fun _ => ?_, fun empty => ?_⟩
        · obtain ⟨before, there, rfl, apart⟩ := entries l bw
          rw [List.map_append, List.map_singleton, List.nodup_append]
          refine ⟨session.nodup before there, List.nodup_singleton key, fun k member k' last => ?_⟩
          obtain ⟨e, inside, rfl⟩ := List.mem_map.mp member
          rw [List.mem_singleton.mp last]
          exact apart e inside
        · obtain ⟨before, there, rfl, apart⟩ := entries l bw
          rcases List.mem_append.mp member with old | new
          · obtain ⟨plain', kept⟩ := session.stored before there e old
            exact ⟨plain', (others e.1 plain' (apart e old)).trans kept⟩
          · rw [List.mem_singleton.mp new]
            exact ⟨plain, own⟩
        · obtain ⟨before, there⟩ := session.opened opened
          exact ⟨putEntry key value before, by rw [written, there]; rfl⟩
        · obtain ⟨before, -, same, -⟩ := entries [] empty
          exact absurd same (by simp)
      · rw [result]
        exact session
      · rw [result]
        exact session

theorem History.session (history : History T O s) : Session T s := by
  induction history with
  | new => exact .fresh (sound_new T) (by rw [setUp_new]) (by rw [setUp_new])
  | @step s op _ plain ih =>
    cases op with
    | put key value => exact ih.put plain.1 plain.2
    | get key => exact ih
    | containsKey key => exact ih
    | enumerate => exact ih.undisturbed (.enumerate s O)
    | close =>
      exact ⟨(close_sound ih.sound).1, fun _ none_left => (nomatch none_left), fun _ none_left => (nomatch none_left),
        fun opened => (nomatch opened), fun empty => (nomatch empty)⟩
    | reopen size version =>
      have sound' := (setUp_sound ih.sound size plain).1
      exact .fresh sound' (by rw [SimpleByteArrayLongMap.step, setUp_file ih.sound size plain])
        (by rw [SimpleByteArrayLongMap.step, setUp_file ih.sound size plain])

/-! ### The scan of the file -/

theorem itemAt_some {e : Bytes × Int} (i : Nat) : itemAt T s i = some e ↔
    StoredAt T s e.1 i ∧ valueAt T.hashLength s (i * T.el) = e.2 := by
  unfold itemAt StoredAt
  cases there : slotAt T s i with
  | free => exact iff_of_false (fun same => nomatch same) fun both => nomatch both.1
  | removed => exact absurd there (slotAt_ne_removed i)
  | held key =>
    dsimp only
    rw [Option.some.injEq, Slot.held.injEq, Prod.ext_iff]

theorem itemAt_isSome (i : Nat) : (itemAt T s i).isSome ↔ slotAt T s i ≠ .free := by
  unfold itemAt
  cases there : slotAt T s i with
  | free => exact iff_of_false Bool.false_ne_true (not_not_intro rfl)
  | removed => exact absurd there (slotAt_ne_removed i)
  | held key => exact iff_of_true rfl fun same => nomatch same

theorem lists_slots (sound : Sound T s) : Lists T s ((List.range T.size).filterMap (itemAt T s)) := by
  have isKey : ∀ {key i}, StoredAt T s key i → IsKey T key := by
    intro key i stored
    rw [← (slotAt_held.mp stored).2]
    exact isKey_keyAt sound stored.lt (by rw [stored]; exact fun same => nomatch same)
  constructor
  · refine List.Nodup.filterMap (fun i j e first second => ?_) List.nodup_range
    obtain ⟨left, -⟩ := (itemAt_some i).mp first
    obtain ⟨right, -⟩ := (itemAt_some j).mp second
    exact sound.table.single e.1 i j (isKey left) left right
  · intro key value
    rw [List.mem_filterMap]
    constructor
    · rintro ⟨i, -, there⟩
      obtain ⟨stored, same⟩ := (itemAt_some i).mp there
      have plain := isKey stored
      exact ⟨plain, (contents_some sound plain).mpr ⟨i, stored, same⟩⟩
    · rintro ⟨plain, known⟩
      obtain ⟨i, stored, same⟩ := (contents_some sound plain).mp known
      exact ⟨i, List.mem_range.mpr stored.lt, (itemAt_some i).mpr ⟨stored, same⟩⟩

theorem scan_eq (T : Layout) (s : State) : scan T s =
    (List.range T.size).filterMap (itemAt T s) ++ if T.version = 0 then [] else (itemAt T s (T.size - 1)).toList := by
  have two := size_ge T
  have slots : ((List.range T.size).filterMap fun i => itemAt T s (min i (T.size - 1))) =
      (List.range T.size).filterMap (itemAt T s) := by
    apply List.filterMap_congr
    intro i member
    rw [Nat.min_eq_left (by have := List.mem_range.mp member; omega)]
  unfold scan turns
  by_cases zero : T.version = 0
  · rw [if_pos zero, if_pos zero, slots, List.append_nil]
  · rw [if_neg zero, if_neg zero, List.range_succ, List.filterMap_append, slots]
    rw [List.filterMap_cons, Nat.min_eq_right (Nat.sub_le T.size 1)]
    cases itemAt T s (T.size - 1) <;> rfl

theorem lists_scan_iff (sound : Sound T s) : Lists T s (scan T s) ↔ T.version = 0 ∨ slotAt T s (T.size - 1) = .free := by
  have two := size_ge T
  rw [scan_eq]
  by_cases zero : T.version = 0
  · rw [if_pos zero, List.append_nil]
    exact iff_of_true (lists_slots sound) (.inl zero)
  · rw [if_neg zero]
    cases last : itemAt T s (T.size - 1) with
    | none =>
      rw [Option.toList_none, List.append_nil]
      refine iff_of_true (lists_slots sound) (.inr ?_)
      by_contra taken
      have there := (itemAt_isSome _).mpr taken
      rw [last] at there
      cases there
    | some e =>
      have taken : slotAt T s (T.size - 1) ≠ .free := (itemAt_isSome _).mp (by rw [last]; rfl)
      refine iff_of_false (fun lists => ?_) (not_or.mpr ⟨zero, taken⟩)
      have apart := List.disjoint_of_nodup_append lists.nodup
      exact apart (List.mem_filterMap.mpr ⟨T.size - 1, List.mem_range.mpr (by omega), last⟩)
        (by rw [Option.toList_some]; exact List.mem_singleton_self e)

/-! ### The turns of the scan -/

/-- A state of the loop over the file of `s`; the buffer has the record that was read last. -/
structure Scanning (T : Layout) (s x : State) : Prop where
  format : x.format = T.format
  kFC : x.kFC = s.kFC
  iter : x.iter = none
  closed : x.closed = false
  vb : x.vb.length = T.el
  buffer : ∀ i < T.size, x.iterPos = (i + 1) * T.el → x.vb = slice s.kFC (i * T.el + T.offset) T.el

variable {x : State}

theorem Scanning.filled (sound : Sound T s) (scanning : Scanning T s x) (inside : i < T.size) (here : x.iterPos = i * T.el) :
    readInto x.vb x.kFC (x.iterPos + x.format.offset) = slice s.kFC (i * T.el + T.offset) T.el := by
  rw [scanning.kFC, here, scanning.format]
  exact readInto_whole scanning.vb (length_slice (record_fits sound inside))

/-- At the end nothing is read, and the last record is still in the buffer. -/
theorem Scanning.beyond (sound : Sound T s) (scanning : Scanning T s x) (here : x.iterPos = T.size * T.el) : readInto x.vb x.kFC (x.iterPos + x.format.offset) =
      slice s.kFC ((T.size - 1) * T.el + T.offset) T.el := by
  have two := size_ge T
  have last := scanning.buffer (T.size - 1) (by omega) (by rw [here, Nat.sub_add_cancel (by omega)])
  rw [scanning.kFC, here, scanning.format, ← last]
  exact readInto_end (by rw [sound.length, Nat.add_comm]; exact Nat.le_refl _)

theorem Scanning.advance (sound : Sound T s) (scanning : Scanning T s x) :
    Scanning T s ((records T.hashLength).advance x) := by
  refine ⟨scanning.format, scanning.kFC, scanning.iter, scanning.closed, (length_readInto _ _ _).trans scanning.vb, ?_⟩
  intro i inside here
  have before : x.iterPos = i * T.el := by
    have el : x.format.el = T.el := by
      rw [scanning.format]
      rfl
    have moved : x.iterPos + x.format.el = (i + 1) * T.el := here
    rw [el, Nat.succ_mul] at moved
    exact Nat.add_right_cancel moved
  exact scanning.filled sound inside before

theorem Scanning.find (sound : Sound T s) (scanning : Scanning T s x) (turn : i < turns T) (here : x.iterPos = i * T.el) :
    (records T.hashLength).find x = itemAt T s (min i (T.size - 1)) := by
  have two := size_ge T
  have read : readInto x.vb x.kFC (x.iterPos + x.format.offset) =
      slice s.kFC (min i (T.size - 1) * T.el + T.offset) T.el := by
    by_cases inside : i < T.size
    · rw [Nat.min_eq_left (by omega)]
      exact scanning.filled sound inside here
    · have other : T.version ≠ 0 := by
        intro zero
        rw [turns, if_pos zero] at turn
        exact inside turn
      rw [turns, if_neg other] at turn
      obtain rfl : i = T.size := by omega
      rw [Nat.min_eq_right (Nat.sub_le T.size 1)]
      exact scanning.beyond sound here
  have slot : min i (T.size - 1) < T.size := by omega
  have version : x.format.version = T.version := by
    rw [scanning.format]
    rfl
  unfold records itemAt
  dsimp only
  rw [read, ← keyAt_eq_take sound.format, version, ← valueAt_eq sound.format]
  split
  · rename_i unused
    rw [(slotAt_free slot).mpr unused]
  · rename_i taken
    rw [slotAt_held.mpr ⟨⟨slot, taken⟩, rfl⟩]

theorem turns_span (sound : Sound T s) : (∀ j < turns T, j * T.el < s.kFC.length) ∧ s.kFC.length ≤ turns T * T.el := by
  have long := T.long
  rw [sound.length]
  unfold turns Layout.offset
  by_cases zero : T.version = 0
  · rw [if_pos zero, if_pos zero, Nat.zero_add]
    exact ⟨fun j less => Nat.mul_lt_mul_of_pos_right less (el_pos T), Nat.le_refl _⟩
  · have el : T.el = T.hashLength + 8 := by rw [Layout.el, if_neg zero]
    rw [if_neg zero, if_neg zero, Nat.succ_mul]
    refine ⟨fun j less => ?_, by omega⟩
    have most := Nat.mul_le_mul_right T.el (Nat.le_of_lt_succ less)
    omega

theorem turns_le (sound : Sound T s) : turns T ≤ s.kFC.length + 1 := by
  have wide := Nat.le_mul_of_pos_right T.size (el_pos T)
  rw [sound.length]
  unfold turns
  split <;> omega

theorem find_visited (sound : Sound T s) {ss : List State} (visited : ss.map State.iterPos = List.range' 0 (turns T) T.el)
    (all : ∀ x ∈ ss, Scanning T s x) : ss.filterMap (records T.hashLength).find = scan T s := by
  have each : ∀ x ∈ ss, (records T.hashLength).find x = itemAt T s (min (x.iterPos / T.el) (T.size - 1)) := by
    intro x member
    have position : x.iterPos ∈ List.range' 0 (turns T) T.el := visited ▸ List.mem_map_of_mem member
    obtain ⟨i, turn, here⟩ := List.mem_range'.mp position
    rw [Nat.zero_add, Nat.mul_comm] at here
    rw [here, offset_div]
    exact (all x member).find sound turn here
  have slots : List.range' 0 (turns T) T.el = (List.range (turns T)).map fun i => i * T.el := by
    refine List.ext_getElem (by rw [List.length_range', List.length_map, List.length_range]) fun i _ _ => ?_
    rw [List.getElem_range', List.getElem_map, List.getElem_range, Nat.zero_add, Nat.mul_comm]
  have positions : ss.filterMap (records T.hashLength).find =
      (ss.map State.iterPos).filterMap fun p => itemAt T s (min (p / T.el) (T.size - 1)) := by
    rw [List.filterMap_map]
    exact List.filterMap_congr each
  rw [positions, visited, slots, List.filterMap_map, scan]
  apply List.filterMap_congr
  intro i _
  rw [Function.comp_apply, offset_div]

/-- The calls of `next` after `iterInit` list the records of the file if there is no iterator. -/
theorem passes_scan (sound : Sound T s) (scanning : Scanning T s x) (start : x.iterPos = 0) :
    Passes (next T.hashLength) x (scan T s) := by
  have inside : ∀ y, Scanning T s y → ((records T.hashLength).inside y = true ↔ y.iterPos < s.kFC.length) := by
    intro y scanning
    refine decide_eq_true_iff.trans ?_
    rw [scanning.kFC]
  have advance : ∀ y, Scanning T s y → ((records T.hashLength).advance y).iterPos = y.iterPos + T.el := by
    intro y scanning
    have el : y.format.el = T.el := by
      rw [scanning.format]
      rfl
    rw [← el]
    rfl
  obtain ⟨within, reach⟩ := turns_span sound
  have within : ∀ j < turns T, x.iterPos + j * T.el < s.kFC.length := fun j less => by
    rw [start, Nat.zero_add]
    exact within j less
  have reach : s.kFC.length ≤ x.iterPos + turns T * T.el := by rwa [start, Nat.zero_add]
  obtain ⟨ss, t, walk, visited, -, all⟩ := Cursor.exists_walk (C := records T.hashLength) State.iterPos (Scanning T s) T.el
    (turns T) x inside advance (fun _ scanning => scanning.advance sound) scanning within reach
  rw [start] at visited
  have few : ss.length ≤ s.kFC.length + 1 := by
    rw [← List.length_map State.iterPos, visited, List.length_range']
    exact turns_le sound
  have passes : Passes ((records T.hashLength).next (s.kFC.length + 1) (.ok : _ → Except Thrown _) fun _ => .ok ()) x
      (scan T s) := by
    rw [Cursor.passes_iff walk few, find_visited sound visited all]
    exact ⟨rfl, rfl⟩
  refine passes.congr_on (I := Scanning T s) ?_ ?_ scanning
  · intro y scanning
    exact (records T.hashLength).next_keeps (fun _ scanning => scanning.advance sound) _ _ _ scanning
  · intro y scanning
    rw [next, scanning.iter, scanning.kFC]
    exact if_neg (by rw [scanning.closed]; exact Bool.false_ne_true)

/-! ### An iteration -/

theorem passes_iter {l : List (Bytes × Int)} (iter : s.iter = some l) : Passes (next T.hashLength) s l := by
  induction l generalizing s with
  | nil =>
    unfold Passes next
    rw [iter]
  | cons e es ih =>
    have called : next T.hashLength s = (.ok (some e), { s with iter := some es }) := by rw [next, iter]
    refine ⟨by rw [called], ?_⟩
    rw [called]
    exact ih rfl

theorem length_scan_le (sound : Sound T s) : (scan T s).length ≤ s.kFC.length + 1 := by
  refine Nat.le_trans (List.length_filterMap_le _ _) ?_
  rw [List.length_range]
  exact turns_le sound

theorem enumerate_eq (O : HashOrder) (session : Session T s) (opened : s.closed = false) :
    ∃ t, enumerate T.hashLength s O = .finished (.ok (listed T O s), t) := by
  obtain ⟨l, bw⟩ := session.opened opened
  have sound := session.sound
  unfold enumerate
  cases l with
  | nil =>
    have start : iterInit s O = { s with iterPos := 0 } := by
      rw [iterInit]
      dsimp only
      rw [bw]
    have all : listed T O s = scan T s := by rw [listed, bw]
    have scanning : Scanning T s { s with iterPos := 0 } := by
      refine ⟨sound.format, rfl, session.idle bw, opened, sound.vb, fun i _ here => ?_⟩
      exact absurd here (Nat.mul_pos (Nat.succ_pos i) (el_pos T)).ne
    rw [start, all]
    refine drain_passes (passes_scan sound scanning rfl) ?_
    have few := length_scan_le sound
    omega
  | cons e es =>
    have start : iterInit s O = { s with iterPos := 0, iter := some (O.order (e :: es)) } := by
      rw [iterInit]
      dsimp only
      rw [bw]
    have all : listed T O s = O.order (e :: es) := by rw [listed, bw]
    rw [start, all]
    refine drain_passes (passes_iter rfl) ?_
    rw [(O.perm (e :: es)).length_eq, bw, Option.getD_some]
    omega

theorem lists_puts_iff (session : Session T s) {l : List (Bytes × Int)} (bw : s.bw = some l) :
    Lists T s (O.order l) ↔ ∀ key, IsKey T key → (contents T s key).isSome → key ∈ l.map Prod.fst := by
  have member : ∀ e, e ∈ O.order l ↔ e ∈ l := fun e => (O.perm l).mem_iff
  constructor
  · intro lists key plain known
    obtain ⟨value, there⟩ := Option.isSome_iff_exists.mp known
    have put := (member _).mp ((lists.complete key value).mpr ⟨plain, there⟩)
    exact List.mem_map_of_mem put
  · intro complete
    refine ⟨(O.perm l).nodup_iff.mpr (session.nodup l bw).of_map, fun key value => ?_⟩
    rw [member]
    constructor
    · exact fun put => session.stored l bw _ put
    · rintro ⟨plain, there⟩
      obtain ⟨⟨k, v⟩, put, rfl⟩ := List.mem_map.mp (complete key plain (by rw [there]; rfl))
      have same := (session.stored l bw _ put).2
      rw [there] at same
      obtain rfl := Option.some.inj same
      exact put

theorem lists_listed_iff (session : Session T s) (opened : s.closed = false) :
    Lists T s (listed T O s) ↔ Complete T s := by
  obtain ⟨l, bw⟩ := session.opened opened
  have only : Complete T s ↔ if l = [] then T.version = 0 ∨ slotAt T s (T.size - 1) = .free
      else ∀ key, IsKey T key → (contents T s key).isSome → key ∈ l.map Prod.fst := by
    refine ⟨fun complete => complete l bw, fun here l' bw' => ?_⟩
    obtain rfl := Option.some.inj (bw.symm.trans bw')
    exact here
  rw [only]
  cases l with
  | nil =>
    have all : listed T O s = scan T s := by rw [listed, bw]
    rw [if_pos rfl, all]
    exact lists_scan_iff session.sound
  | cons e es =>
    have all : listed T O s = O.order (e :: es) := by rw [listed, bw]
    rw [if_neg (List.cons_ne_nil e es), all]
    exact lists_puts_iff session bw

theorem Lists.hashes {l : List (Bytes × Int)} (lists : Lists T s l) :
    (l.map Prod.fst).Nodup ∧ ∀ key, key ∈ l.map Prod.fst ↔ IsKey T key ∧ (contents T s key).isSome := by
  constructor
  · refine lists.nodup.map_on fun e member e' member' same => ?_
    obtain ⟨-, first⟩ := (lists.complete e.1 e.2).mp member
    obtain ⟨-, second⟩ := (lists.complete e'.1 e'.2).mp member'
    rw [same, second] at first
    exact Prod.ext same (Option.some.inj first).symm
  · intro key
    rw [List.mem_map]
    constructor
    · rintro ⟨e, member, rfl⟩
      obtain ⟨plain, there⟩ := (lists.complete e.1 e.2).mp member
      exact ⟨plain, by rw [there]; rfl⟩
    · rintro ⟨plain, known⟩
      obtain ⟨value, there⟩ := Option.isSome_iff_exists.mp known
      exact ⟨(key, value), (lists.complete key value).mpr ⟨plain, there⟩, rfl⟩

theorem enumerates_session (O : HashOrder) (session : Session T s) (opened : s.closed = false) :
    Enumerates T O s ↔ Complete T s := by
  obtain ⟨t, result⟩ := enumerate_eq O session opened
  rw [← lists_listed_iff (O := O) session opened]
  constructor
  · rintro ⟨l, t', found, lists, -⟩
    rw [result] at found
    obtain rfl := Except.ok.inj (congrArg Prod.fst (Outcome.finished.inj found))
    exact lists
  · intro lists
    obtain ⟨nodup, complete⟩ := lists.hashes
    refine ⟨listed T O s, t, result, lists, (listed T O s).map Prod.fst, ?_, nodup, complete⟩
    rw [getHashes, result]
    rfl

/-- After every run an iteration lists every record once if and only if the session has put them all, or has put
none and the last slot is not read twice. -/
theorem enumerates_iff (T : Layout) (O : HashOrder) {s : State} (history : History T O s) (opened : s.closed = false) :
    Enumerates T O s ↔ Complete T s := enumerates_session O history.session opened

/-! ### Files that are set up again -/

def lastKey : Bytes := List.replicate 32 6

def filledLast : State := step 32 (setUp 32 5 1 none) inOrder (.put lastKey 64)

def reopenedLast : State := step 32 (step 32 filledLast inOrder .close) inOrder (.reopen 5 1)

def addedOne : State := step 32 reopenedLast inOrder (.put oneKey 96)

theorem history_filledLast : History smallFile inOrder filledLast :=
  .step .new ⟨⟨by decide, by decide⟩, by decide⟩

theorem history_reopenedLast : History smallFile inOrder reopenedLast :=
  .step (.step history_filledLast trivial) Iff.rfl

theorem history_addedOne : History smallFile inOrder addedOne :=
  .step history_reopenedLast ⟨isKey_oneKey, by decide⟩

theorem history_reopened : History smallFile inOrder (reopened smallFile) :=
  .step (.step (.step .new ⟨isKey_oneKey, by decide⟩) trivial) Iff.rfl

/-- A file that is set up again and has nothing in its last slot. -/
theorem enumerates_iff_reopened : Enumerates smallFile inOrder (reopened smallFile) := by
  refine (enumerates_iff smallFile inOrder history_reopened (by decide +kernel)).mpr fun l bw => ?_
  have empty : (reopened smallFile).bw = some [] := by decide +kernel
  obtain rfl := Option.some.inj (empty.symm.trans bw)
  rw [if_pos rfl]
  exact .inr (by decide +kernel)

/-- The key in the last slot is listed twice, and not at all after another one is put. -/
theorem reopened_not_enumerated :
    (History smallFile inOrder reopenedLast ∧ reopenedLast.closed = false ∧ ¬ Enumerates smallFile inOrder reopenedLast) ∧
    History smallFile inOrder addedOne ∧ addedOne.closed = false ∧ ¬ Enumerates smallFile inOrder addedOne := by
  refine ⟨⟨history_reopenedLast, by decide +kernel, fun enumerates => ?_⟩, history_addedOne, by decide +kernel,
    fun enumerates => ?_⟩
  · have complete := (enumerates_session inOrder history_reopenedLast.session (by decide +kernel)).mp enumerates
    have last := complete [] (by decide +kernel)
    rw [if_pos rfl] at last
    exact absurd last (by decide +kernel)
  · have complete := (enumerates_session inOrder history_addedOne.session (by decide +kernel)).mp enumerates
    have put := complete [(oneKey, 96)] (by decide +kernel) lastKey ⟨by decide, by decide⟩ (by decide +kernel)
    exact absurd put (by decide +kernel)

end EncryptedDedup.SDFS.SimpleByteArrayLongMap
