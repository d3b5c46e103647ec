import EncryptedDedup.Lib.Overlay

/-!
# The write buffers of a file

The cache `writeBuffers` of a `SparseDedupFile` at the position of one chunk: the registries `openBuffers` and
`flushingBuffers`, the record of the chunk, removals that were not delivered yet and close tasks that did not run
yet. What is done under the lock of a buffer is one step, and the loader takes a step for each thing it looks at.
-/

namespace EncryptedDedup.SDFS.WriteBuffers

/-- A `WritableCacheBuffer`, with the bytes that it has for the chunk. -/
structure Buffer where
  content : Int → Option UInt8
  dirty : Bool
  closed : Bool
  flushing : Bool

/-- What the loader has found out. -/
inductive Loading where
  | called
  /-- There is no buffer in `flushingBuffers`. -/
  | notFlushing
  /-- In `openBuffers` neither. -/
  | notOpen
  | found (b : Nat)
  | opened (b : Nat)
  deriving DecidableEq

structure State where
  buffers : Nat → Buffer
  made : Nat
  writeBuffers : Option Nat
  loading : Option Loading
  openBuffers : Option Nat
  flushingBuffers : Option Nat
  record : Int → Option UInt8
  removals : List Nat
  tasks : List Nat
  /-- The buffers that some caller has. -/
  obtained : List Nat
  /-- The writes that were not refused. -/
  accepted : List Write

def blank : Buffer := ⟨fun _ => none, false, true, false⟩

def State.new (g : Int → Option UInt8) : State := ⟨fun _ => blank, 0, none, none, none, none, g, [], [], [], []⟩

variable {g : Int → Option UInt8} {s : State} {b c : Nat}

/-! ### The bodies -/

def openBuffer (s : State) (b : Nat) : State :=
  { s with
    flushingBuffers := none
    openBuffers := some b
    buffers := Function.update s.buffers b { s.buffers b with closed := false, flushing := false } }

/-- What `marshalWriteBuffer` reads. It is closed until it is opened. -/
def marshalled (s : State) : Buffer := ⟨s.record, false, true, false⟩

/-- A step of the loader. -/
def load (s : State) : Loading → State
  | .called =>
    { s with loading := some (match s.flushingBuffers with | some b => .found b | none => .notFlushing) }
  | .notFlushing =>
    { s with loading := some (match s.openBuffers with | some b => .found b | none => .notOpen) }
  | .notOpen =>
    { s with
      buffers := Function.update s.buffers s.made (marshalled s)
      made := s.made + 1
      loading := some (.found s.made) }
  | .found b => { openBuffer s b with loading := some (.opened b) }
  | .opened b =>
    -- A buffer that was put into the cache meanwhile stays there.
    { s with
      loading := none
      obtained := b :: s.obtained
      writeBuffers := some (s.writeBuffers.getD b)
      removals := if s.writeBuffers.isSome then b :: s.removals else s.removals }

/-- `getWriteBuffer`; while the loader runs, others wait for it. -/
def get (s : State) : State :=
  match s.writeBuffers, s.loading with
  | some b, _ => { s with obtained := b :: s.obtained }
  | none, none => { s with loading := some .called }
  | none, some _ => s

def write (s : State) (b : Nat) (w : Write) : State :=
  if (s.buffers b).closed ∨ (s.buffers b).flushing then s else
    { s with
      buffers := Function.update s.buffers b
        { s.buffers b with content := written (s.buffers b).content w, dirty := true }
      accepted := s.accepted ++ [w] }

/-- `flush()`. The registries are by position. -/
def flush (s : State) (b : Nat) : State :=
  if (s.buffers b).flushing then s
  else if (s.buffers b).closed then { s with flushingBuffers := none, openBuffers := none }
  else if (s.buffers b).dirty then
    { s with
      buffers := Function.update s.buffers b { s.buffers b with flushing := true }
      flushingBuffers := some b
      tasks := b :: s.tasks }
  else
    { s with
      buffers := Function.update s.buffers b { s.buffers b with closed := true }
      openBuffers := none }

/-- `close()`. Where the buffer is not stored, it goes back into the cache. -/
def close (s : State) (b : Nat) (stored : Bool) : State :=
  if (s.buffers b).flushing = false then { s with flushingBuffers := none, openBuffers := none }
  else if (s.buffers b).closed then { s with flushingBuffers := none, openBuffers := none }
  else if (s.buffers b).dirty ∧ stored = false then
    { openBuffer s b with writeBuffers := some b, removals := s.writeBuffers.toList ++ s.removals }
  else
    { s with
      record := if (s.buffers b).dirty then (s.buffers b).content else s.record
      buffers := Function.update s.buffers b
        { s.buffers b with closed := true, flushing := false, dirty := false }
      flushingBuffers := none
      openBuffers := none }

inductive Event where
  | get
  | load
  | write (b : Nat) (w : Write)
  | evict
  | deliver (b : Nat)
  | close (b : Nat) (stored : Bool)

def step (s : State) : Event → State
  | .get => get s
  | .load => match s.loading with
    | some stage => load s stage
    | none => s
  | .write b w => if b ∈ s.obtained then write s b w else s
  | .evict => match s.writeBuffers with
    | some b => { s with writeBuffers := none, removals := b :: s.removals }
    | none => s
  | .deliver b => if b ∈ s.removals then flush { s with removals := s.removals.erase b } b else s
  | .close b stored => if b ∈ s.tasks then close { s with tasks := s.tasks.erase b } b stored else s

/-! ### What should hold -/

/-- The bytes with all writes that were accepted. -/
def current (g : Int → Option UInt8) (s : State) : Int → Option UInt8 := overlay g s.accepted

structure NoLostUpdate (g : Int → Option UInt8) (s : State) : Prop where
  /-- A buffer that is marshalled now has every write. -/
  fresh : s.loading = some .notOpen → (marshalled s).content = current g s
  /-- Once no buffer is open and nothing is in flight, the record has every write. -/
  settled : (∀ b, (s.buffers b).closed = true) → s.removals = [] → s.tasks = [] → s.record = current g s

/-- The registration of an open buffer is not taken away: neither by the removal of a buffer that is closed nor by a
close task of a buffer that is not flushing. -/
def Meets (s : State) : Event → Prop
  | .deliver b => b ∈ s.removals → (s.buffers b).flushing = false → (s.buffers b).closed = true → s.openBuffers = none
  | .close b _ => b ∈ s.tasks → (s.buffers b).flushing = false → s.openBuffers = none
  | _ => True

instance (s : State) : (e : Event) → Decidable (Meets s e)
  | .get | .load | .write .. | .evict => inferInstanceAs (Decidable True)
  | .deliver _ => inferInstanceAs (Decidable (_ → _ → _ → _))
  | .close .. => inferInstanceAs (Decidable (_ → _ → _))

/-- Every event meets the condition in the state before it. -/
def Meeting : State → List Event → Prop
  | _, [] => True
  | s, e :: events => Meets s e ∧ Meeting (step s e) events

instance : (s : State) → (events : List Event) → Decidable (Meeting s events)
  | _, [] => inferInstanceAs (Decidable True)
  | s, e :: events => @instDecidableAnd _ _ _ (instDecidableMeeting (step s e) events)

/-! ### What is kept -/

/-- There is one open buffer at most. It is registered, and has every write; where there is none, the record has. -/
structure Registered (g : Int → Option UInt8) (s : State) : Prop where
  unique : ∀ b, (s.buffers b).closed = false → s.openBuffers = some b
  isOpen : ∀ b, s.openBuffers = some b → (s.buffers b).closed = false
  content : ∀ b, s.openBuffers = some b → (s.buffers b).content = current g s
  saved : ∀ b, s.openBuffers = some b → (s.buffers b).dirty = false → s.record = current g s
  stored : s.openBuffers = none → s.record = current g s
  flushing : ∀ b, (s.buffers b).flushing = true → (s.buffers b).closed = false
  queued : ∀ b, s.flushingBuffers = some b → s.openBuffers = some b ∧ (s.buffers b).flushing = true

/-- What the loader has found is still so, but that a buffer may be closed again. -/
structure Kept (g : Int → Option UInt8) (s : State) : Prop extends Registered g s where
  absent : s.loading = some .notOpen → s.openBuffers = none
  found : ∀ b, s.loading = some (.found b) →
    s.openBuffers = some b ∨ s.openBuffers = none ∧ (s.buffers b).content = current g s

theorem Kept.noLostUpdate (kept : Kept g s) : NoLostUpdate g s := by
  refine ⟨fun missed => kept.stored (kept.absent missed), fun closed _ _ => kept.stored ?_⟩
  cases registered : s.openBuffers with
  | none => rfl
  | some b =>
    have isOpen := kept.isOpen b registered
    rw [closed b] at isOpen
    cases isOpen

theorem kept_new (g : Int → Option UInt8) : Kept g (.new g) where
  unique _ isOpen := nomatch isOpen
  isOpen _ registered := nomatch registered
  content _ registered := nomatch registered
  saved _ registered := nomatch registered
  stored _ := rfl
  flushing _ flushing := nomatch flushing
  queued _ registered := nomatch registered
  absent missed := nomatch missed
  found _ found := nomatch found

theorem Registered.others (kept : Registered g s) (here : s.openBuffers = some b ∨ s.openBuffers = none) (other : c ≠ b) :
    (s.buffers c).closed = true := by
  by_contra isOpen
  have registered := kept.unique c (Bool.eq_false_iff.mpr isOpen)
  rcases here with same | none
  · exact other (Option.some.inj (registered.symm.trans same))
  · rw [registered] at none
    cases none

theorem Registered.of_open {s s' : State} {bf : Buffer} (kept : Registered g s)
    (here : s.openBuffers = some b ∨ s.openBuffers = none) (buffers : s'.buffers = Function.update s.buffers b bf)
    (isOpen : bf.closed = false) (registered : s'.openBuffers = some b)
    (queued : ∀ c, s'.flushingBuffers = some c → c = b ∧ bf.flushing = true) (content : bf.content = current g s')
    (saved : bf.dirty = false → s'.record = current g s') : Registered g s' := by
  have own : s'.buffers b = bf := by rw [buffers, Function.update_self]
  have rest : ∀ c, c ≠ b → s'.buffers c = s.buffers c := fun c other => by rw [buffers, Function.update_of_ne other]
  constructor
  case unique =>
    intro c isOpen'
    by_cases same : c = b
    · rw [registered, same]
    · rw [rest c same, kept.others here same] at isOpen'
      cases isOpen'
  case isOpen =>
    intro c same
    obtain rfl := Option.some.inj (registered.symm.trans same)
    rw [own, isOpen]
  case content =>
    intro c same
    obtain rfl := Option.some.inj (registered.symm.trans same)
    rw [own, content]
  case saved =>
    intro c same clean
    obtain rfl := Option.some.inj (registered.symm.trans same)
    rw [own] at clean
    exact saved clean
  case stored =>
    intro none
    rw [registered] at none
    cases none
  case flushing =>
    intro c flushing
    by_cases same : c = b
    · rw [same, own, isOpen]
    · rw [rest c same] at flushing ⊢
      exact kept.flushing c flushing
  case queued =>
    intro c queued'
    obtain ⟨rfl, flushing⟩ := queued c queued'
    rw [own]
    exact ⟨registered, flushing⟩

theorem Registered.of_closed {s s' : State} {bf : Buffer} (kept : Registered g s)
    (here : s.openBuffers = some b ∨ s.openBuffers = none) (buffers : s'.buffers = Function.update s.buffers b bf)
    (closed : bf.closed = true) (idle : bf.flushing = false) (unregistered : s'.openBuffers = none)
    (unqueued : s'.flushingBuffers = none) (record : s'.record = current g s') : Registered g s' := by
  have all : ∀ c, (s'.buffers c).closed = true := by
    intro c
    rw [buffers]
    by_cases same : c = b
    · rw [same, Function.update_self, closed]
    · rw [Function.update_of_ne same, kept.others here same]
  constructor
  case unique =>
    intro c isOpen
    rw [all c] at isOpen
    cases isOpen
  case isOpen =>
    intro c registered
    rw [unregistered] at registered
    cases registered
  case content =>
    intro c registered
    rw [unregistered] at registered
    cases registered
  case saved =>
    intro c registered
    rw [unregistered] at registered
    cases registered
  case stored => exact fun _ => record
  case flushing =>
    intro c flushing
    rw [buffers] at flushing
    by_cases same : c = b
    · rw [same, Function.update_self, idle] at flushing
      cases flushing
    · rw [Function.update_of_ne same] at flushing
      have isOpen := kept.flushing c flushing
      rw [kept.others here same] at isOpen
      cases isOpen
  case queued =>
    intro c queued
    rw [unqueued] at queued
    cases queued

theorem Registered.unqueued (kept : Registered g s) (unregistered : s.openBuffers = none) :
    s.flushingBuffers = none := by
  by_contra queued
  obtain ⟨c, queued⟩ := Option.ne_none_iff_exists'.mp queued
  rw [(kept.queued c queued).1] at unregistered
  cases unregistered

theorem Registered.unregister (kept : Registered g s) (unregistered : s.openBuffers = none) :
    { s with flushingBuffers := none, openBuffers := none } = s := by
  have unqueued := kept.unqueued unregistered
  cases s
  cases unregistered
  cases unqueued
  rfl

/-! ### Steps -/

theorem Kept.openBuffer (kept : Kept g s)
    (here : s.openBuffers = some b ∨ s.openBuffers = none ∧ (s.buffers b).content = current g s) :
    Registered g (openBuffer s b) := by
  refine kept.of_open (here.imp_right And.left) rfl rfl rfl (fun _ queued => nomatch queued) ?_ fun clean => ?_
  · rcases here with registered | ⟨-, same⟩
    · exact kept.content b registered
    · exact same
  · rcases here with registered | ⟨unregistered, -⟩
    · exact kept.saved b registered clean
    · exact kept.stored unregistered

/-- The open buffer is closed, when its bytes are those of the record. -/
theorem Kept.shut {s s' : State} {bf : Buffer} (kept : Kept g s) (here : s.openBuffers = some b)
    (buffers : s'.buffers = Function.update s.buffers b bf) (closed : bf.closed = true) (idle : bf.flushing = false)
    (content : bf.content = (s.buffers b).content) (unregistered : s'.openBuffers = none)
    (unqueued : s'.flushingBuffers = none) (accepted : s'.accepted = s.accepted) (loading : s'.loading = s.loading)
    (record : s'.record = current g s) : Kept g s' := by
  have same : current g s' = current g s := congrArg (overlay g) accepted
  refine ⟨kept.of_closed (.inl here) buffers closed idle unregistered unqueued (record.trans same.symm),
    fun _ => unregistered, fun c found => .inr ⟨unregistered, ?_⟩⟩
  rw [loading] at found
  rcases kept.found c found with registered | ⟨none', -⟩
  · obtain rfl := Option.some.inj (registered.symm.trans here)
    rw [buffers, Function.update_self, content, same, kept.content c registered]
  · rw [here] at none'
    cases none'

theorem Kept.load (kept : Kept g s) {stage : Loading} (loading : s.loading = some stage) :
    Kept g (load s stage) := by
  cases stage with
  | called =>
    unfold WriteBuffers.load
    refine ⟨{ kept with }, ?_, ?_⟩
    · intro missed
      dsimp only at missed
      split at missed
      · cases missed
      · cases missed
    · intro c found
      dsimp only at found
      split at found
      · rename_i d queued
        obtain rfl := Loading.found.inj (Option.some.inj found)
        exact .inl (kept.queued _ queued).1
      · cases found
  | notFlushing =>
    unfold WriteBuffers.load
    refine ⟨{ kept with }, ?_, ?_⟩
    · intro missed
      dsimp only at missed
      split at missed
      · cases missed
      · rename_i unregistered
        exact unregistered
    · intro c found
      dsimp only at found
      split at found
      · rename_i d registered
        obtain rfl := Loading.found.inj (Option.some.inj found)
        exact .inl registered
      · cases found
  | notOpen =>
    have unregistered := kept.absent loading
    have record := kept.stored unregistered
    refine ⟨kept.of_closed (.inr unregistered) rfl rfl rfl unregistered (kept.unqueued unregistered) record, nofun, ?_⟩
    intro c found
    obtain rfl := Loading.found.inj (Option.some.inj found)
    refine .inr ⟨unregistered, ?_⟩
    unfold WriteBuffers.load
    dsimp only
    rw [Function.update_self]
    exact record
  | found b =>
    exact ⟨{ kept.openBuffer (kept.found b loading) with }, nofun, nofun⟩
  | opened b => exact ⟨{ kept with }, nofun, nofun⟩

theorem Kept.write (kept : Kept g s) (b : Nat) (w : Write) : Kept g (write s b w) := by
  unfold WriteBuffers.write
  split
  · exact kept
  · rename_i accepts
    obtain ⟨isOpen, idle⟩ := not_or.mp accepts
    have here := kept.unique b (Bool.eq_false_iff.mpr isOpen)
    refine ⟨kept.of_open (.inl here) rfl (Bool.eq_false_iff.mpr isOpen) here ?_ ?_ nofun, ?_, ?_⟩
    · intro c queued
      obtain ⟨registered, flushing⟩ := kept.queued c queued
      obtain rfl := Option.some.inj (registered.symm.trans here)
      exact ⟨rfl, flushing⟩
    · dsimp only
      rw [kept.content b here, current, current, ← foldl_written, ← foldl_written, List.foldl_append]
      rfl
    · exact fun missed => kept.absent missed
    · intro c found
      rcases kept.found c found with registered | ⟨unregistered, -⟩
      · exact .inl registered
      · rw [here] at unregistered
        cases unregistered

theorem Kept.flush (kept : Kept g s)
    (clear : (s.buffers b).flushing = false → (s.buffers b).closed = true → s.openBuffers = none) :
    Kept g (flush s b) := by
  unfold WriteBuffers.flush
  split
  · exact kept
  · rename_i idle
    have idle := Bool.eq_false_iff.mpr idle
    split
    · rename_i closed
      rwa [kept.unregister (clear idle closed)]
    · rename_i isOpen
      have isOpen := Bool.eq_false_iff.mpr isOpen
      have here := kept.unique b isOpen
      split
      · refine ⟨kept.of_open (.inl here) rfl isOpen here ?_ (kept.content b here) (kept.saved b here), kept.absent, ?_⟩
        · exact fun c queued => ⟨(Option.some.inj queued).symm, rfl⟩
        · intro c found
          rcases kept.found c found with registered | ⟨unregistered, -⟩
          · exact .inl registered
          · rw [here] at unregistered
            cases unregistered
      · rename_i clean
        have unqueued : s.flushingBuffers = none := by
          by_contra queued
          obtain ⟨c, queued⟩ := Option.ne_none_iff_exists'.mp queued
          obtain ⟨registered, flushing⟩ := kept.queued c queued
          obtain rfl := Option.some.inj (registered.symm.trans here)
          rw [idle] at flushing
          cases flushing
        exact kept.shut here rfl rfl idle rfl rfl unqueued rfl rfl
          (kept.saved b here (Bool.eq_false_iff.mpr clean))

theorem Kept.close (kept : Kept g s) (clear : (s.buffers b).flushing = false → s.openBuffers = none) (stored : Bool) :
    Kept g (close s b stored) := by
  unfold WriteBuffers.close
  split
  · rename_i idle
    rwa [kept.unregister (clear idle)]
  · rename_i flushing
    have isOpen := kept.flushing b (Bool.eq_true_of_not_eq_false flushing)
    have here := kept.unique b isOpen
    rw [if_neg (Bool.eq_false_iff.mp isOpen)]
    split
    · refine ⟨{ kept.openBuffer (.inl here) with }, fun missed => ?_, fun c found => ?_⟩
      · have unregistered := kept.absent missed
        rw [here] at unregistered
        cases unregistered
      · rcases kept.found c found with registered | ⟨unregistered, -⟩
        · obtain rfl := Option.some.inj (registered.symm.trans here)
          exact .inl rfl
        · rw [here] at unregistered
          cases unregistered
    · refine kept.shut here rfl rfl rfl rfl rfl rfl rfl rfl ?_
      dsimp only
      split
      · exact kept.content b here
      · rename_i clean
        exact kept.saved b here (Bool.eq_false_iff.mpr clean)

theorem Kept.next (kept : Kept g s) {e : Event} (meets : Meets s e) : Kept g (step s e) := by
  cases e with
  | get =>
    change Kept g (get s)
    unfold get
    split
    · exact ⟨{ kept with }, kept.absent, kept.found⟩
    · exact ⟨{ kept with }, nofun, nofun⟩
    · exact kept
  | load =>
    unfold WriteBuffers.step
    dsimp only
    split
    · rename_i stage loading
      exact kept.load loading
    · exact kept
  | write b w =>
    unfold WriteBuffers.step
    dsimp only
    split
    · exact kept.write b w
    · exact kept
  | evict =>
    unfold WriteBuffers.step
    dsimp only
    split
    · exact ⟨{ kept with }, kept.absent, kept.found⟩
    · exact kept
  | deliver b =>
    unfold WriteBuffers.step
    dsimp only
    split
    · rename_i removal
      have delivered : Kept g { s with removals := s.removals.erase b } := ⟨{ kept with }, kept.absent, kept.found⟩
      exact delivered.flush (meets removal)
    · exact kept
  | close b stored =>
    unfold WriteBuffers.step
    dsimp only
    split
    · rename_i task
      have taken : Kept g { s with tasks := s.tasks.erase b } := ⟨{ kept with }, kept.absent, kept.found⟩
      exact taken.close (meets task) stored
    · exact kept

/-! ### Every run -/

theorem Kept.run (kept : Kept g s) {events : List Event} (meeting : Meeting s events) : Kept g (events.foldl step s) := by
  induction events generalizing s with
  | nil => exact kept
  | cons e events ih => exact ih (kept.next meeting.1) meeting.2

/-- In every run whose events all meet the condition no write is lost. -/
theorem no_lost_update (g : Int → Option UInt8) {events : List Event} (meeting : Meeting (.new g) events) :
    NoLostUpdate g (events.foldl step (.new g)) :=
  ((kept_new g).run meeting).noLostUpdate

/-! ### Short runs -/

def loads : List Event := [.get, .load, .load, .load, .load, .load]

def someWrite : Write := ⟨[7], 0⟩

def otherWrite : Write := ⟨[5], 1⟩

def closedFirst : List Event :=
  loads ++ [.write 0 someWrite, .evict, .deliver 0, .close 0 true, .get, .load, .load]

theorem no_lost_update_closed : NoLostUpdate (fun _ => none) (closedFirst.foldl step (.new fun _ => none)) :=
  no_lost_update (fun _ => none) (by decide)

def reopened : List Event :=
  loads ++ [.write 0 someWrite, .evict, .deliver 0, .get, .load, .load, .load, .close 0 true, .evict, .get, .load, .load]

def removedLate : List Event :=
  loads ++ [.evict, .get, .load, .load, .load, .load, .write 0 someWrite, .deliver 0, .close 0 true, .evict] ++ loads ++
    [.write 1 otherWrite, .deliver 0, .evict, .get, .load, .load]

theorem reopened_lost : ¬ NoLostUpdate (fun _ => none) (reopened.foldl step (.new fun _ => none)) ∧
    ¬ NoLostUpdate (fun _ => none) (removedLate.foldl step (.new fun _ => none)) :=
  ⟨fun kept => absurd (congrFun (kept.fresh rfl) 0) (by decide), fun kept => absurd (congrFun (kept.fresh rfl) 1) (by decide)⟩

end EncryptedDedup.SDFS.WriteBuffers
