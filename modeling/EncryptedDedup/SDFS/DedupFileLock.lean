import EncryptedDedup.SDFS.HashLocPair
import Mathlib.Data.List.Induction
import Mathlib.Tactic.Common

/-!
# Byte-range locks

`DedupFileLock` decides whether a range overlaps a lock, and the file asks it for the locks of its list. No call
enters a lock into that list.
-/

namespace EncryptedDedup.SDFS

structure DedupFileLock where
  channel : Nat
  position : Int
  size : Int
  shared : Bool
  valid : Bool

namespace DedupFileLock

def release (lock : DedupFileLock) : DedupFileLock := { lock with valid := false }

def overLaps (lock : DedupFileLock) (pos sz : Int) : Bool :=
  let endPos := long (lock.position + lock.size)
  let pEndPos := long (pos + sz)
  (lock.position ≤ pos && pos ≤ endPos) || (lock.position ≤ pEndPos && pEndPos ≤ endPos)

/-- The bytes of the lock and those from `pos` to `pos + sz` have one in common. -/
def Intersects (lock : DedupFileLock) (pos sz : Int) : Prop :=
  max lock.position pos < min (lock.position + lock.size) (pos + sz)

/-- A lock and a request that must not be granted at the same time. -/
def Conflicts (lock : DedupFileLock) (pos sz : Int) (shared : Bool) : Prop :=
  lock.valid = true ∧ lock.Intersects pos sz ∧ ¬ (lock.shared = true ∧ shared = true)

end DedupFileLock

namespace SparseDedupFile

/-- The list of the file, and the locks that were granted, in order; a lock is known by its place among these. -/
structure LockState where
  locks : List Nat
  granted : List DedupFileLock

def LockState.init : LockState := ⟨[], []⟩

namespace LockState

def overLaps (s : LockState) (pos sz : Int) (sharedRequested : Bool) : Bool :=
  s.locks.any fun i =>
    match s.granted[i]? with
    | none => false
    | some lock => lock.overLaps pos sz && lock.valid && (!lock.shared || !sharedRequested)

def addLock (s : LockState) (ch : Nat) (position len : Int) (shared : Bool) : Except String LockState :=
  if s.overLaps position len shared then .error "Overlapping Lock requested"
  else .ok { s with granted := s.granted ++ [⟨ch, position, len, shared, true⟩] }

def removeLock (s : LockState) (lock : Nat) : LockState := { s with locks := s.locks.erase lock }

def release (s : LockState) (lock : Nat) : LockState :=
  { s with granted := s.granted.modify lock DedupFileLock.release }

end LockState

/-- The calls; `DedupFileChannel.tryLock` is `addLock`. -/
inductive LockCall where
  | addLock (ch : Nat) (position len : Int) (shared : Bool)
  | removeLock (lock : Nat)
  | release (lock : Nat)
  /-- `DedupFileChannel.removeLock`. -/
  | channelRemoveLock (lock : Nat)

namespace LockState

def call (s : LockState) : LockCall → Except String LockState
  | .addLock ch position len shared => s.addLock ch position len shared
  | .removeLock lock => .ok (s.removeLock lock)
  | .release lock => .ok (s.release lock)
  | .channelRemoveLock lock => .ok ((s.release lock).removeLock lock)

/-- A call that is refused leaves the state as it was. -/
def step (s : LockState) (c : LockCall) : LockState :=
  match s.call c with
  | .ok s' => s'
  | .error _ => s

def run (calls : List LockCall) : LockState := calls.foldl step init

/-- Of two valid locks that intersect both are shared. -/
def Exclusive (s : LockState) : Prop :=
  ∀ (i j : Nat) (a b : DedupFileLock), i ≠ j → s.granted[i]? = some a → s.granted[j]? = some b →
    b.valid = true → ¬ a.Conflicts b.position b.size b.shared

/-- In every state of the run valid locks exclude each other, and what is refused conflicts with a valid lock. -/
structure LocksExclude (calls : List LockCall) : Prop where
  exclusive : ∀ before, before <+: calls → (run before).Exclusive
  refused : ∀ before ch position len shared message, before ++ [.addLock ch position len shared] <+: calls →
    (run before).addLock ch position len shared = .error message →
      ∃ lock ∈ (run before).granted, lock.Conflicts position len shared

def NoneConflicts (calls : List LockCall) : Prop :=
  ∀ before ch position len shared, before ++ [.addLock ch position len shared] <+: calls →
    ∀ lock ∈ (run before).granted, ¬ lock.Conflicts position len shared

/-! ### Steps -/

theorem addLock_of_empty {s : LockState} (empty : s.locks = []) (ch : Nat) (position len : Int) (shared : Bool) :
    s.addLock ch position len shared = .ok { s with granted := s.granted ++ [⟨ch, position, len, shared, true⟩] } := by
  unfold addLock overLaps
  simp [empty]

theorem step_locks {s : LockState} (empty : s.locks = []) (c : LockCall) : (s.step c).locks = [] := by
  unfold step call
  cases c with
  | addLock ch position len shared =>
    dsimp only
    rw [addLock_of_empty empty]
    exact empty
  | removeLock lock =>
    unfold removeLock
    simp [empty]
  | release lock => exact empty
  | channelRemoveLock lock =>
    unfold removeLock release
    simp [empty]

theorem run_append (calls : List LockCall) (c : LockCall) : run (calls ++ [c]) = (run calls).step c := by
  unfold run
  rw [List.foldl_append, List.foldl_cons, List.foldl_nil]

/-- No lock is ever in the list. -/
theorem run_locks (calls : List LockCall) : (run calls).locks = [] := by
  induction calls using List.reverseRecOn with
  | nil => rfl
  | append_singleton calls c ih =>
    rw [run_append]
    exact step_locks ih c

theorem run_addLock (calls : List LockCall) (ch : Nat) (position len : Int) (shared : Bool) :
    (run (calls ++ [.addLock ch position len shared])).granted =
      (run calls).granted ++ [⟨ch, position, len, shared, true⟩] := by
  rw [run_append]
  unfold step call
  dsimp only
  rw [addLock_of_empty (run_locks calls)]

theorem conflicts_comm {a b : DedupFileLock} (both : a.valid = true ∧ b.valid = true) :
    a.Conflicts b.position b.size b.shared ↔ b.Conflicts a.position a.size a.shared := by
  unfold DedupFileLock.Conflicts DedupFileLock.Intersects
  rw [max_comm, min_comm, and_comm (a := a.shared = true)]
  simp [both]

theorem get_of_release {s : LockState} {lock i : Nat} {a : DedupFileLock} (at_ : (s.release lock).granted[i]? = some a)
    (valid : a.valid = true) : s.granted[i]? = some a := by
  unfold LockState.release at at_
  rw [List.getElem?_modify] at at_
  obtain ⟨old, here, rfl⟩ := Option.map_eq_some_iff.mp at_
  split at valid
  · exact absurd valid Bool.false_ne_true
  · rename_i other
    rw [if_neg other]
    exact here

theorem Exclusive.release {s : LockState} (exclusive : s.Exclusive) (lock : Nat) : (s.release lock).Exclusive := by
  intro i j a b apart atI atJ validB conflict
  exact exclusive i j a b apart (get_of_release atI conflict.1) (get_of_release atJ validB) validB conflict

theorem Exclusive.addLock {s : LockState} (exclusive : s.Exclusive) {new : DedupFileLock} (valid : new.valid = true)
    (apart : ∀ lock ∈ s.granted, ¬ lock.Conflicts new.position new.size new.shared) :
    ({ s with granted := s.granted ++ [new] } : LockState).Exclusive := by
  have known : ∀ i (a : DedupFileLock), (s.granted ++ [new])[i]? = some a →
      s.granted[i]? = some a ∨ (i = s.granted.length ∧ a = new) := by
    intro i a at_
    rcases Nat.lt_trichotomy i s.granted.length with below | rfl | above
    · exact .inl (by rwa [List.getElem?_append_left below] at at_)
    · rw [List.getElem?_append_right (Nat.le_refl _), Nat.sub_self] at at_
      exact .inr ⟨rfl, (Option.some.inj at_).symm⟩
    · rw [List.getElem?_eq_none (by rw [List.length_append, List.length_singleton]; omega)] at at_
      cases at_
  intro i j a b different atI atJ validB conflict
  rcases known i a atI with oldI | ⟨lastI, rfl⟩
  · rcases known j b atJ with oldJ | ⟨-, rfl⟩
    · exact exclusive i j a b different oldI oldJ validB conflict
    · exact apart a (List.mem_of_getElem? oldI) conflict
  · rcases known j b atJ with oldJ | ⟨lastJ, -⟩
    · exact apart b (List.mem_of_getElem? oldJ) ((conflicts_comm ⟨valid, validB⟩).mp conflict)
    · exact different (lastI.trans lastJ.symm)

/-- As every request is granted, the locks exclude each other exactly if no request conflicts with a valid lock. -/
theorem locksExclude_iff (calls : List LockCall) : LocksExclude calls ↔ NoneConflicts calls := by
  constructor
  · intro excludes before ch position len shared inside lock member conflict
    have exclusive := excludes.exclusive _ inside
    obtain ⟨i, below, here⟩ := List.getElem_of_mem member
    refine exclusive i (run before).granted.length lock ⟨ch, position, len, shared, true⟩ (Nat.ne_of_lt below) ?_ ?_ rfl
      conflict
    · rw [run_addLock, List.getElem?_append_left below, List.getElem?_eq_getElem below, here]
    · rw [run_addLock, List.getElem?_append_right (Nat.le_refl _), Nat.sub_self]
      rfl
  · intro none
    refine ⟨fun before inside => ?_, fun before ch position len shared message _ error => ?_⟩
    · induction before using List.reverseRecOn with
      | nil =>
        intro i j a b _ atI
        exact absurd atI (by simp [run, init])
      | append_singleton before c ih =>
        have exclusive := ih ((List.prefix_append before [c]).trans inside)
        rw [run_append]
        unfold step call
        cases c with
        | addLock ch position len shared =>
          dsimp only
          rw [addLock_of_empty (run_locks before)]
          exact exclusive.addLock rfl (none before ch position len shared inside)
        | removeLock lock => exact exclusive
        | release lock => exact exclusive.release lock
        | channelRemoveLock lock => exact exclusive.release lock
    · rw [addLock_of_empty (run_locks before)] at error
      cases error

/-- Two channels lock the first ten bytes exclusively, and both get the lock. -/
theorem both_granted : (run [.addLock 1 0 10 false, .addLock 2 0 10 false]).granted.length = 2 ∧
    ¬ LocksExclude [.addLock 1 0 10 false, .addLock 2 0 10 false] := by
  refine ⟨by decide, fun excludes => ?_⟩
  have conflict : (⟨1, 0, 10, false, true⟩ : DedupFileLock).Conflicts 0 10 false :=
    ⟨rfl, by unfold DedupFileLock.Intersects; decide, fun both => Bool.false_ne_true both.1⟩
  exact excludes.exclusive _ (List.prefix_refl _) 0 1 _ ⟨2, 0, 10, false, true⟩ (by decide) rfl rfl rfl conflict

end LockState
end SparseDedupFile
end EncryptedDedup.SDFS
