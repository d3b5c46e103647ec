import EncryptedDedup.SDFS.SimpleMapSlots

/-!
# Runs of a `SimpleByteArrayLongMap`

Which puts keep a map that is closed and set up again an insert-once map.
-/

namespace EncryptedDedup.SDFS.SimpleByteArrayLongMap
open SlotFile (hashOf)
open OpenAddressing (Slot Vacant)

variable {T : Layout} {O : HashOrder} {s s' : State} {m : Bytes → Option Int} {key : Bytes} {i : Nat}

/-! ### Iterations -/

/-- Only the iterators and the buffer are used. -/
structure Undisturbed (s s' : State) : Prop where
  format : s'.format = s.format
  kFC : s'.kFC = s.kFC
  mapped : s'.mapped = s.mapped
  bw : s'.bw = s.bw
  vb : s'.vb.length = s.vb.length
  closed : s'.closed = s.closed
  /-- The iterator of `bw` is for a map that has put something. -/
  idle : s.bw = some [] → s.iter = none → s'.iter = none

theorem Undisturbed.refl (s : State) : Undisturbed s s := ⟨rfl, rfl, rfl, rfl, rfl, rfl, fun _ => id⟩

theorem Undisturbed.advance (same : Undisturbed s s') : Undisturbed s ((records T.hashLength).advance s') :=
  ⟨same.format, same.kFC, same.mapped, same.bw, (length_readInto _ _ _).trans same.vb, same.closed,
    same.idle⟩

theorem Undisturbed.next (same : Undisturbed s s') : Undisturbed s (next T.hashLength s').2 := by
  unfold SimpleByteArrayLongMap.next
  cases left_over : s'.iter with
  | none =>
    dsimp only
    split
    · exact same
    · exact (records T.hashLength).next_keeps (I := Undisturbed s) (fun _ => Undisturbed.advance) _ _ _ same
  | some left =>
    cases left with
    | nil => exact same
    | cons e es =>
      refine ⟨same.format, same.kFC, same.mapped, same.bw, same.vb, same.closed, fun empty idle => ?_⟩
      rw [same.idle empty idle] at left_over
      cases left_over

theorem Undisturbed.iterInit (s : State) (O : HashOrder) : Undisturbed s (iterInit s O) := by
  unfold SimpleByteArrayLongMap.iterInit
  dsimp only
  split
  · rename_i some_put
    refine ⟨rfl, rfl, rfl, rfl, rfl, rfl, fun empty => ?_⟩
    rw [some_put] at empty
    cases empty
  · exact ⟨rfl, rfl, rfl, rfl, rfl, rfl, fun _ => id⟩

theorem Undisturbed.enumerate (s : State) (O : HashOrder) : Undisturbed s (step T.hashLength s O .enumerate) := by
  unfold step
  cases result : SimpleByteArrayLongMap.enumerate T.hashLength s O with
  | finished r => exact drain_keeps (fun _ => Undisturbed.next) (.iterInit s O) result
  | _ => exact .refl s

/-! ### What a call should do -/

def Room (T : Layout) (s : State) : Prop := ∃ i < T.size, slotAt T s i = .free

/-- The keys and values of a call fit the file, and it is set up again as a file of its kind. -/
def Op.Plain (T : Layout) : Op → Prop
  | .put key value => IsKey T key ∧ Fits T value
  | .get key => IsKey T key
  | .containsKey key => IsKey T key
  | .reopen _ version => version = 0 ↔ T.version = 0
  | _ => True

/-- What was put, as far as the calls said so. -/
def remember (T : Layout) (s : State) (m : Bytes → Option Int) : Op → Bytes → Option Int
  | .put key value => if (put T.hashLength s key value).2 = .ok true then Function.update m key (some value) else m
  | _ => m

/-- What a call returns, and that a put that does not return true changes nothing. -/
def Answers (T : Layout) (s : State) (m : Bytes → Option Int) : Op → Prop
  | .put key value =>
    ((put T.hashLength s key value).2 = .ok true ↔ s.closed = false ∧ m key = none ∧ Room T s) ∧
    ((put T.hashLength s key value).2 ≠ .ok true → (put T.hashLength s key value).1 = s)
  | .get key => get T.hashLength s key = if s.closed then .error .mapClosed else .ok ((m key).getD (-1))
  | .containsKey key => containsKey T.hashLength s key = if s.closed then .error .mapClosed else .ok (m key).isSome
  | _ => True

structure Right (T : Layout) (O : HashOrder) (s : State) (m : Bytes → Option Int) (op : Op) : Prop where
  answers : Answers T s m op
  sees : ∀ key, IsKey T key → contents T (step T.hashLength s O op) key = remember T s m op key
  /-- What is stored for a key stays so. -/
  once : ∀ key value, m key = some value → remember T s m op key = some value

/-- A new key that there is room for is put into the map that made the file, and in a table of two slots its home
is free. -/
def Meets (T : Layout) (s : State) : Op → Prop
  | .put key _ => s.closed = false → (∀ i, ¬ StoredAt T s key i) → Room T s →
    s.mapped ≠ none ∧ (T.size = 2 → slotAt T s (homeOf T key) = .free)
  | _ => True

structure Knows (T : Layout) (s : State) (m : Bytes → Option Int) : Prop where
  sound : Sound T s
  same : ∀ key, IsKey T key → contents T s key = m key

/-- Runs whose calls all meet the condition, with what is stored. -/
inductive Run (T : Layout) (O : HashOrder) : State → (Bytes → Option Int) → Prop
  | new : Run T O (setUp T.hashLength T.size T.version none) fun _ => none
  | step {s m op} : Run T O s m → op.Plain T → Meets T s op → Run T O (step T.hashLength s O op) (remember T s m op)

theorem Knows.absent (knows : Knows T s m) (plain : IsKey T key) : m key = none ↔ ∀ i, ¬ StoredAt T s key i := by
  rw [← knows.same key plain]
  exact contents_none knows.sound plain

theorem new_knows (T : Layout) : Knows T (setUp T.hashLength T.size T.version none) fun _ => none := by
  have sound := sound_new T
  refine ⟨sound, fun key plain => contents_absent sound plain fun i stored => ?_⟩
  have taken := slotAt_held.mp stored
  rw [setUp_new] at taken
  exact taken.1.2 (keyAt_newFile taken.1.1)

/-! ### Every call but a put -/

theorem Undisturbed.sound (same : Undisturbed s s') (sound : Sound T s) :
    Sound T s' ∧ ∀ key, IsKey T key → contents T s' key = contents T s key :=
  sound.of_file same.format same.kFC (same.vb.trans sound.vb) (.inl same.mapped)

theorem Knows.kept (knows : Knows T s m)
    (kept : Sound T s' ∧ ∀ key, IsKey T key → contents T s' key = contents T s key) : Knows T s' m :=
  ⟨kept.1, fun key plain => (kept.2 key plain).trans (knows.same key plain)⟩

/-! ### Puts -/

theorem put_once (knows : Knows T s m) (plain : IsKey T key) {value : Int} (meets : Meets T s (.put key value)) :
    Answers T s m (.put key value) := by
  unfold Answers
  dsimp only
  cases opened : s.closed with
  | true =>
    rw [put_closed opened]
    exact ⟨iff_of_false (fun same => nomatch same) fun both => (nomatch both.1), fun _ => rfl⟩
  | false =>
    by_cases known : ∃ i, StoredAt T s key i
    · obtain ⟨i, stored⟩ := known
      rw [put_stored knows.sound plain opened stored]
      refine ⟨iff_of_false (fun same => nomatch same) fun both => ?_, fun _ => rfl⟩
      exact (knows.absent plain).mp both.2.1 i stored
    · have absent := not_exists.mp known
      rcases put_absent knows.sound plain opened absent value with
        ⟨i, result, vacant, -⟩ | ⟨result, two, taken, -⟩ | ⟨result, full⟩
      · have inside : i < T.size := vacant.reached.lt (homeOf_lt key) fun _ => nextOf_lt key
        have unused : slotAt T s i = .free := vacant.unused.resolve_right (slotAt_ne_removed i)
        obtain ⟨bits, -⟩ := meets opened absent ⟨i, inside, unused⟩
        rw [result, Option.isSome_iff_ne_none.mpr bits]
        refine ⟨iff_of_true rfl ⟨rfl, (knows.absent plain).mpr absent, i, inside, unused⟩, fun failed => ?_⟩
        exact absurd rfl failed
      · rw [result]
        refine ⟨iff_of_false (fun same => nomatch same) fun both => ?_, fun _ => rfl⟩
        exact taken ((meets opened absent both.2.2).2 two)
      · rw [result]
        refine ⟨iff_of_false (fun same => nomatch same) fun both => ?_, fun _ => rfl⟩
        obtain ⟨j, inside, unused⟩ := both.2.2
        exact full j inside unused

theorem put_true (knows : Knows T s m) (plain : IsKey T key) {value : Int} (fits : Fits T value)
    (result : (put T.hashLength s key value).2 = .ok true) :
    Knows T (put T.hashLength s key value).1 (Function.update m key (some value)) := by
  have opened : s.closed = false := by
    cases closed : s.closed with
    | false => rfl
    | true =>
      rw [put_closed closed] at result
      cases result
  have absent : ∀ i, ¬ StoredAt T s key i := by
    intro i stored
    rw [put_stored knows.sound plain opened stored] at result
    cases result
  rcases put_absent knows.sound plain opened absent value with ⟨i, placed, vacant, -⟩ | ⟨failed, -⟩ | ⟨failed, -⟩
  · rw [placed]
    obtain ⟨own, others⟩ := written_contents knows.sound plain absent vacant fits
    refine ⟨knows.sound.written plain absent vacant value, fun k plain' => ?_⟩
    by_cases same : k = key
    · rw [same, own, Function.update_self]
    · rw [others k plain' same, knows.same k plain', Function.update_of_ne same]
  · rw [failed] at result
    cases result
  · rw [failed] at result
    cases result

theorem put_knows (knows : Knows T s m) (plain : IsKey T key) {value : Int} (fits : Fits T value)
    (answers : Answers T s m (.put key value)) :
    Knows T (put T.hashLength s key value).1 (remember T s m (.put key value)) := by
  unfold remember
  dsimp only
  split
  · rename_i result
    exact put_true knows plain fits result
  · rename_i result
    rw [answers.2 result]
    exact knows

theorem put_meets (knows : Knows T s m) (plain : IsKey T key) {value : Int} (answers : Answers T s m (.put key value)) :
    Meets T s (.put key value) := by
  intro opened absent room
  have result := answers.1.mpr ⟨opened, (knows.absent plain).mpr absent, room⟩
  rcases put_absent knows.sound plain opened absent value with ⟨i, placed, -, moves⟩ | ⟨failed, -⟩ | ⟨failed, -⟩
  · rw [placed] at result
    refine ⟨Option.isSome_iff_ne_none.mp (Except.ok.inj result), fun two => ?_⟩
    by_contra taken
    exact moves ⟨two, taken, absent _⟩
  · rw [failed] at result
    cases result
  · rw [failed] at result
    cases result

/-! ### Every run -/

/-- A call that meets the condition does what it should. -/
theorem step_right (knows : Knows T s m) {op : Op} (plain : op.Plain T) (meets : Meets T s op) :
    Right T O s m op ∧ Sound T (step T.hashLength s O op) := by
  -- All but a put remember what was stored.
  have right : ∀ {m'}, Knows T (step T.hashLength s O op) m' → m' = remember T s m op → Answers T s m op →
      (∀ key value, m key = some value → remember T s m op key = some value) →
      Right T O s m op ∧ Sound T (step T.hashLength s O op) :=
    fun knows' same answers once => ⟨⟨answers, fun key plain' => (knows'.same key plain').trans (congrFun same key), once⟩,
      knows'.sound⟩
  cases op with
  | put key value =>
    have answers := put_once knows plain.1 meets
    refine right (put_knows knows plain.1 plain.2 answers) rfl answers fun k v known => ?_
    unfold remember
    dsimp only
    split
    · rename_i result
      have other : k ≠ key := by
        rintro rfl
        rw [(answers.1.mp result).2.1] at known
        cases known
      rw [Function.update_of_ne other, known]
    · exact known
  | get key =>
    refine right knows rfl ?_ fun _ _ => id
    unfold Answers
    dsimp only
    split
    · rename_i closed
      rw [get, if_pos closed]
    · rename_i opened
      rw [get_eq (Bool.not_eq_true _ ▸ opened), knows.same key plain]
  | containsKey key =>
    refine right knows rfl ?_ fun _ _ => id
    unfold Answers
    dsimp only
    split
    · rename_i closed
      rw [containsKey, if_pos closed]
    · rename_i opened
      rw [containsKey_eq knows.sound plain (Bool.not_eq_true _ ▸ opened), knows.same key plain]
  | enumerate => exact right (knows.kept (Undisturbed.sound (.enumerate s O) knows.sound)) rfl trivial fun _ _ => id
  | close => exact right (knows.kept (close_sound knows.sound)) rfl trivial fun _ _ => id
  | reopen size version => exact right (knows.kept (setUp_sound knows.sound size plain)) rfl trivial fun _ _ => id

theorem run_knows (run : Run T O s m) : Knows T s m := by
  induction run with
  | new => exact new_knows T
  | step _ plain meets ih =>
    obtain ⟨right, sound⟩ := step_right ih plain meets
    exact ⟨sound, right.sees⟩

theorem step_meets (knows : Knows T s m) {op : Op} (plain : op.Plain T) (right : Right T O s m op) : Meets T s op := by
  cases op with
  | put key value => exact put_meets knows plain.1 right.answers
  | _ => exact trivial

/-- In every run whose calls meet the condition the file is an insert-once map, and the next call does what it
should if and only if it meets the condition too. -/
theorem run_insert_once_iff (T : Layout) (O : HashOrder) {s : State} {m : Bytes → Option Int} (run : Run T O s m) :
    (∀ key, IsKey T key → contents T s key = m key) ∧ ∀ op, op.Plain T → (Right T O s m op ↔ Meets T s op) := by
  have knows := run_knows run
  refine ⟨knows.same, fun op plain => ⟨step_meets knows plain, fun meets => ?_⟩⟩
  exact (step_right knows plain meets).1

/-! ### Small files -/

def smallFile : Layout where
  hashLength := 32
  size := 5
  version := 1
  prime := Nat.prime_five
  long := Nat.le_add_right 12 20
  int := by omega
  mappable := by decide

def tinyFile : Layout := { smallFile with size := 2, prime := Nat.prime_two, mappable := by decide }

def inOrder : HashOrder := ⟨id, List.Perm.refl⟩

def oneKey : Bytes := List.replicate 32 7

def otherKey : Bytes := List.replicate 32 5

theorem isKey_oneKey : IsKey smallFile oneKey := ⟨by decide, by decide⟩

def filled (T : Layout) : State := step T.hashLength (setUp T.hashLength T.size T.version none) inOrder (.put oneKey 96)

def filledWith (T : Layout) : Bytes → Option Int :=
  remember T (setUp T.hashLength T.size T.version none) (fun _ => none) (.put oneKey 96)

def reopened (T : Layout) : State :=
  step T.hashLength (step T.hashLength (filled T) inOrder .close) inOrder (.reopen T.size T.version)

theorem run_filled (T : Layout) (plain : IsKey T oneKey) (fits : Fits T 96) : Run T inOrder (filled T) (filledWith T) := by
  refine .step .new ⟨plain, fits⟩ fun _ _ _ => ⟨?_, fun _ => ?_⟩
  · rw [setUp_new]
    exact Option.some_ne_none _
  · rw [setUp_new]
    unfold slotAt
    exact if_neg fun both => both.2 (keyAt_newFile both.1)

theorem run_reopened (T : Layout) (plain : IsKey T oneKey) (fits : Fits T 96) :
    Run T inOrder (reopened T) (filledWith T) := .step (.step (run_filled T plain fits) trivial trivial) Iff.rfl trivial

/-- The small file when it is set up again. -/
theorem run_insert_once_iff_small :
    (∀ key, IsKey smallFile key → contents smallFile (reopened smallFile) key = filledWith smallFile key) ∧
    ∀ op, op.Plain smallFile →
      (Right smallFile inOrder (reopened smallFile) (filledWith smallFile) op ↔ Meets smallFile (reopened smallFile) op) :=
  run_insert_once_iff smallFile inOrder (run_reopened smallFile isKey_oneKey (by decide))

/-- A put after the file is set up again returns false, and so does one that finds the first of two homes taken. -/
theorem reopened_not_once :
    (Run smallFile inOrder (reopened smallFile) (filledWith smallFile) ∧
      ¬ Right smallFile inOrder (reopened smallFile) (filledWith smallFile) (.put otherKey 64)) ∧
    Run tinyFile inOrder (filled tinyFile) (filledWith tinyFile) ∧
      ¬ Right tinyFile inOrder (filled tinyFile) (filledWith tinyFile) (.put otherKey 64) := by
  refine ⟨⟨run_reopened smallFile isKey_oneKey (by decide), fun right => ?_⟩,
    run_filled tinyFile ⟨by decide, by decide⟩ (by decide), fun right => ?_⟩
  · have result := right.answers.1.mpr ⟨by decide +kernel, by decide +kernel, 0, by decide, by decide +kernel⟩
    exact absurd result (by decide +kernel)
  · have result := right.answers.1.mpr ⟨by decide +kernel, by decide +kernel, 0, by decide, by decide +kernel⟩
    exact absurd result (by decide +kernel)

end EncryptedDedup.SDFS.SimpleByteArrayLongMap
