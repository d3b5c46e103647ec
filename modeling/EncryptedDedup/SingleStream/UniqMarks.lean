import EncryptedDedup.SingleStream.EntropyRun
import Mathlib.Data.List.Induction

/-!
# What `uniq` stands for

`peakToPair` marks both halves of a pair in one key space. The marks are the inferred ciphertext
chunks as long as no plaintext half brings in a key of its own.
-/

namespace EncryptedDedup.EntropyAttack
open Attack

variable {D : Type} [LinearOrder D] {P : PriorityQueue Node cmp} {A : Arith D} {T : Tuning D}
  {d : Databases} {args : Args}

def Event.plainHalf : Event → List Fp
  | .paired p _ _ => [p.key]
  | _ => []

def plainHalves (log : List Event) : List Fp := log.flatMap Event.plainHalf

def pushedKeys (log : List Event) : List Fp := (pushedT log).map Node.key

theorem plainHalves_concat (log : List Event) (e : Event) :
    plainHalves (log ++ [e]) = plainHalves log ++ Event.plainHalf e := by simp [plainHalves]

theorem pushedKeys_concat (log : List Event) (e : Event) :
    pushedKeys (log ++ [e]) = pushedKeys log ++ e.ciphers.map Node.key := by simp [pushedKeys]

/-- The keys of `uniq` are the ciphertext chunks pushed so far. -/
def MarksExact (s : State) : Prop := ∀ k, k ∈ s.uniq.keys ↔ k ∈ pushedKeys s.log

/-- Only chunks that were pushed before are passed over. -/
def SkipsJustified (s : State) : Prop :=
  ∀ before c held after, s.log = before ++ .skipped c held :: after → c.key ∈ pushedKeys before

/-- Each plaintext half that was put into `uniq` was there already, or is the ciphertext half. -/
def HalvesMarked (s : State) : Prop :=
  ∀ before p c held after, s.log = before ++ .paired p c held :: after →
    p.key = c.key ∨ p.key ∈ pushedKeys before

structure Marks (s : State) : Prop where
  keys : ∀ k, k ∈ s.uniq.keys ↔ k ∈ pushedKeys s.log ∨ k ∈ plainHalves s.log
  /-- A plaintext half is not pushed as a ciphertext chunk later. -/
  once : ∀ before p c held after, s.log = before ++ .paired p c held :: after →
    p.key = c.key ∨ p.key ∈ pushedKeys before ∨ p.key ∉ pushedKeys s.log
  skips : ∀ before c held after, s.log = before ++ .skipped c held :: after →
    c.key ∈ pushedKeys before ∨ c.key ∈ plainHalves before

theorem split_concat {log before after : List Event} {e x : Event} (same : log ++ [e] = before ++ x :: after) :
    (∃ after', log = before ++ x :: after' ∧ after = after' ++ [e]) ∨ (log = before ∧ e = x) := by
  cases after using List.reverseRecOn with
  | nil =>
    obtain ⟨front, last⟩ := List.append_inj' same rfl
    exact Or.inr ⟨front, List.singleton_inj.mp last⟩
  | append_singleton after y =>
    rw [← List.cons_append, ← List.append_assoc] at same
    obtain ⟨front, last⟩ := List.append_inj' same rfl
    exact Or.inl ⟨after, front, by rw [List.singleton_inj.mp last]⟩

theorem Marks.move {candidate : Node → Node → Prop} {s t : State} (marks : Marks s)
    (move : Move (rules args) candidate s t) : Marks t := by
  cases move with
  | @push p c uniq _ fresh _ marked =>
    have log : (s.push p c uniq).log = s.log ++ [.paired p c s.qO.length] := rfl
    have pushed : pushedKeys (s.push p c uniq).log = pushedKeys s.log ++ [c.key] := pushedKeys_concat _ _
    have halves : plainHalves (s.push p c uniq).log = plainHalves s.log ++ [p.key] := plainHalves_concat _ _
    rw [marks.keys, not_or] at fresh
    refine ⟨fun k => ?_, ?_, ?_⟩
    · show k ∈ uniq.keys ↔ _
      rw [marked k, marks.keys k, pushed, halves]
      show _ ∨ k ∈ [c.key, p.key] ↔ _
      simp only [List.mem_append, List.mem_cons, List.not_mem_nil, or_false]
      tauto
    · intro before p' c' held after same
      rw [log] at same
      rw [pushed, List.mem_append, List.mem_singleton, not_or]
      rcases split_concat same with ⟨after', here, -⟩ | ⟨whole, last⟩
      · rcases marks.once before p' c' held after' here with equal | old | never
        · exact Or.inl equal
        · exact Or.inr (Or.inl old)
        · refine Or.inr (Or.inr ⟨never, fun late => fresh.2 ?_⟩)
          rw [← late, here]
          exact List.mem_flatMap.mpr ⟨_, List.mem_append_right _ List.mem_cons_self, List.mem_singleton_self _⟩
      · cases last
        rw [← whole]
        tauto
    · intro before c' held after same
      rw [log] at same
      rcases split_concat same with ⟨after', here, -⟩ | ⟨-, last⟩
      · exact marks.skips before c' held after' here
      · cases last
  | @skip c seen =>
    have log : (s.skip c).log = s.log ++ [.skipped c s.qO.length] := rfl
    have pushed : pushedKeys (s.skip c).log = pushedKeys s.log :=
      (pushedKeys_concat _ _).trans (List.append_nil _)
    have halves : plainHalves (s.skip c).log = plainHalves s.log :=
      (plainHalves_concat _ _).trans (List.append_nil _)
    refine ⟨fun k => ?_, ?_, ?_⟩
    · rw [pushed, halves]
      exact marks.keys k
    · intro before p' c' held after same
      rw [log] at same
      rw [pushed]
      rcases split_concat same with ⟨after', here, -⟩ | ⟨-, last⟩
      · exact marks.once before p' c' held after' here
      · cases last
    · intro before c' held after same
      rw [log] at same
      rcases split_concat same with ⟨after', here, -⟩ | ⟨whole, last⟩
      · exact marks.skips before c' held after' here
      · cases last
        rw [← whole]
        exact (marks.keys _).mp seen

theorem Marks.moves {candidate : Node → Node → Prop} {s t : State} (marks : Marks s)
    (moves : Moves (rules args) candidate s t) : Marks t := moves.keep (fun _ _ marks => marks.move) marks

theorem marks_leaked {entries : List (Fp × Bytes)} {s : State} (leaked : Leaked d args entries s) : Marks s := by
  have unpaired : plainHalves s.log = [] := by
    refine List.flatMap_eq_nil_iff.mpr fun e member => ?_
    rcases leaked.events e member with ⟨p, c, rfl⟩ | ⟨k, rfl⟩ <;> rfl
  refine ⟨fun k => ?_, ?_, ?_⟩
  · rw [unpaired, leaked.marked k]
    simp [pushedKeys]
  · intro before p c held after same
    have member : Event.paired p c held ∈ s.log := by simp [same]
    rcases leaked.events _ member with ⟨p', c', wrong⟩ | ⟨k, wrong⟩ <;> cases wrong
  · intro before c held after same
    have member : Event.skipped c held ∈ s.log := by simp [same]
    rcases leaked.events _ member with ⟨p', c', wrong⟩ | ⟨k, wrong⟩ <;> cases wrong

theorem marks_examine {s : State} (marks : Marks s) (p c : Node) : Marks (s.examine p c) := by
  unfold State.examine
  split
  · exact ⟨marks.keys, marks.once, marks.skips⟩
  · exact marks

theorem marks_iteration {candidate : Node → Node → Prop} {s t : State} (marks : Marks s)
    (iteration : Iteration (rules args) candidate s t) : Marks t := by
  obtain ⟨p, c, mid, -, -, moves, rfl⟩ := iteration
  have after := (marks_examine marks p c).moves moves
  exact ⟨after.keys, after.once, after.skips⟩

theorem marks_head {s₀ s : EntropyState} {n : Nat} (started : start P A T d args = some s₀)
    (tested : (mainLoop P A T d args).Tests s₀ n s) : Marks s.toState := by
  obtain ⟨s₁, stat, moves⟩ := start_moves started
  refine Loop.invariant _ (I := fun s => Marks s.toState) ((marks_leaked (statDb_leaked stat)).moves moves)
    (fun t u marks _ moved => ?_) tested
  exact marks_iteration marks (iterate_iteration moved)

theorem called_marks {s : State} {origins targets : List (Candidate D)} {flag : Nat}
    (called : Called P A T d args s origins targets flag) : Marks s := by
  cases called with
  | scan stat => exact marks_leaked (statDb_leaked stat)
  | left started tested =>
    rw [inspect_toState]
    exact marks_examine (marks_head started tested) _ _
  | right started tested headO headT stacked =>
    refine Marks.moves ?_ (turns_moves 1 0 _ ⟨_, _, []⟩ (leftCandidates_spec stacked))
    rw [inspect_toState]
    exact marks_examine (marks_head started tested) _ _

theorem point_marks {s : State} (point : Point P A T d args s) : Marks s := by
  cases point with
  | leaking part leaked =>
    refine marks_leaked (statEntries_leaked ?_ leaked)
    have keys := d.target.keys_nodup
    rw [OrderedMap.keys, part, List.map_append] at keys
    exact (List.nodup_append.mp keys).1
  | pairing called =>
    refine (called_marks called).moves (?_ : Moves (rules args) (fun _ _ => True) _ _)
    exact turns_moves _ 0 _ ⟨_, _, []⟩ fun _ _ _ _ => trivial
  | head started tested => exact marks_head started tested

/-- `uniq` holds exactly the pushed ciphertext chunks throughout a run exactly if no pair brings a
plaintext half into it that was not pushed to `q_t` before, or with it. -/
theorem marks_iff :
    (∀ s, Point P A T d args s → MarksExact s ∧ SkipsJustified s) ↔
      ∀ s, Point P A T d args s → HalvesMarked s := by
  constructor
  · intro exact_marks s point before p c held after same
    have marks := point_marks point
    have half : p.key ∈ plainHalves s.log := by
      rw [same]
      exact List.mem_flatMap.mpr ⟨_, List.mem_append_right _ List.mem_cons_self, List.mem_singleton_self _⟩
    rcases marks.once before p c held after same with equal | old | never
    · exact Or.inl equal
    · exact Or.inr old
    · exact absurd (((exact_marks s point).1 p.key).mp ((marks.keys p.key).mpr (Or.inr half))) never
  · intro halves s point
    have marks := point_marks point
    -- A plaintext half in some part of the log was pushed in that part.
    have covered : ∀ before rest, s.log = before ++ rest → ∀ k ∈ plainHalves before, k ∈ pushedKeys before := by
      intro before rest same k member
      obtain ⟨e, inside, half⟩ := List.mem_flatMap.mp member
      cases e with
      | paired p c held =>
        obtain rfl := List.mem_singleton.mp half
        obtain ⟨front, back, rfl⟩ := List.append_of_mem inside
        have pushed : pushedKeys (front ++ .paired p c held :: back) =
            pushedKeys front ++ c.key :: pushedKeys back := by
          simp [pushedKeys, pushedT, Event.ciphers]
        rw [pushed]
        rcases halves s point front p c held (back ++ rest) (by rw [same]; simp) with equal | old
        · rw [equal]
          exact List.mem_append_right _ List.mem_cons_self
        · exact List.mem_append_left _ old
      | _ => cases half
    constructor
    · intro k
      rw [marks.keys k]
      exact or_iff_left_of_imp (covered s.log [] (List.append_nil _).symm k)
    · intro before c held after same
      exact (marks.skips before c held after same).elim id (covered before _ same c.key)

def swappedDatabases : Databases := .ofTraces "121" "212"

def swappedArgs : Args := ⟨2, 1, 10, 0, 0, fun _ => 0⟩

/-- Chunk 1 is the plaintext half of the first pair, and passed over as a ciphertext chunk. -/
theorem marks_swapped : ∃ s, Point listHeap rationals (tuning rationals) swappedDatabases swappedArgs s ∧
    ¬ MarksExact s ∧ ¬ SkipsJustified s := by
  have run : (start listHeap rationals (tuning rationals) swappedDatabases swappedArgs).map
      (fun s => (s.uniq.keys, s.log)) =
      some ([Fp.ofBytes [1], Fp.ofBytes [2]],
        [.paired ⟨Fp.ofBytes [1], 2⟩ ⟨Fp.ofBytes [2], 2⟩ 0, .skipped ⟨Fp.ofBytes [1], 1⟩ 1]) := by
    decide +kernel
  obtain ⟨s, started, seen⟩ := Option.map_eq_some_iff.mp run
  obtain ⟨keys, log⟩ := Prod.mk.inj seen
  refine ⟨s.toState, .head started .enter, ?_, ?_⟩
  · intro exactly
    have pushed := (exactly (Fp.ofBytes [1])).mp (by simp [keys])
    rw [log] at pushed
    revert pushed
    decide
  · intro justified
    have pushed := justified [_] _ _ [] log
    revert pushed
    decide

end EncryptedDedup.EntropyAttack
