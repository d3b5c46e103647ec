import EncryptedDedup.Lib.Loop
import Mathlib.Data.List.Basic

/-!
# Cursors

A scan that looks for the next item from a state on, and what its calls hand out until it reports the end.
-/

namespace EncryptedDedup

/-- The calls of `next` hand out the items, and the one after them reports the end. -/
def Passes {σ ε β : Type} (next : σ → Except ε (Option β) × σ) : σ → List β → Prop
  | s, [] => (next s).1 = .ok none
  | s, b :: bs => (next s).1 = .ok (some b) ∧ Passes next (next s).2 bs

theorem Passes.congr_on {σ ε β : Type} {next next' : σ → Except ε (Option β) × σ} {I : σ → Prop}
    (keeps : ∀ s, I s → I (next s).2) (same : ∀ s, I s → next' s = next s) {s : σ} (start : I s) {bs : List β}
    (passes : Passes next s bs) : Passes next' s bs := by
  induction bs generalizing s with
  | nil =>
    rw [Passes, same s start]
    exact passes
  | cons b bs ih =>
    obtain ⟨given, rest⟩ := passes
    rw [Passes, same s start]
    exact ⟨given, ih (keeps s start) rest⟩

/-- A loop that takes items from the calls of `next` up to the first that is not wanted, and what ended it. -/
def takeNext {σ ε β : Type} (next : σ → Except ε (Option β) × σ) (wanted : β → Bool) :
    Nat → σ → Outcome (List β × Except ε Unit)
  | 0, _ => .running
  | turns + 1, s =>
    match next s with
    | (.error e, _) => .finished ([], .error e)
    | (.ok none, _) => .finished ([], .ok ())
    | (.ok (some b), s) =>
      if wanted b then (takeNext next wanted turns s).map fun r => (b :: r.1, r.2) else .finished ([], .ok ())

theorem takeNext_passes {σ ε β : Type} {next : σ → Except ε (Option β) × σ} {s : σ} {bs : List β}
    (passes : Passes next s bs) (wanted : β → Bool) {turns : Nat} (enough : bs.length < turns) :
    takeNext next wanted turns s = .finished (bs.takeWhile wanted, .ok ()) := by
  induction bs generalizing s turns with
  | nil =>
    obtain ⟨n, rfl⟩ : ∃ n, turns = n + 1 := Nat.exists_eq_succ_of_ne_zero (Nat.ne_of_gt enough)
    rw [takeNext]
    rcases called : next s with ⟨_, s'⟩
    rw [Passes, called] at passes
    obtain rfl := passes
    rfl
  | cons b bs ih =>
    obtain ⟨n, rfl⟩ : ∃ n, turns = n + 1 := Nat.exists_eq_succ_of_ne_zero (Nat.ne_of_gt (Nat.zero_lt_of_lt enough))
    obtain ⟨given, rest⟩ := passes
    rw [takeNext]
    rcases called : next s with ⟨_, s'⟩
    rw [called] at given rest
    obtain rfl := given
    dsimp only
    rw [List.takeWhile_cons]
    split
    · rw [ih rest (Nat.lt_of_succ_lt_succ enough)]
      rfl
    · rfl

/-- What the calls hand out up to the end, or the failure that comes first. -/
def drain {σ ε β : Type} (next : σ → Except ε (Option β) × σ) : Nat → σ → Outcome (Except ε (List β) × σ)
  | 0, _ => .running
  | turns + 1, s =>
    match next s with
    | (.error e, s) => .finished (.error e, s)
    | (.ok none, s) => .finished (.ok [], s)
    | (.ok (some b), s) => (drain next turns s).map fun r => (r.1.map (b :: ·), r.2)

theorem drain_passes {σ ε β : Type} {next : σ → Except ε (Option β) × σ} {s : σ} {bs : List β}
    (passes : Passes next s bs) {turns : Nat} (enough : bs.length < turns) :
    ∃ t, drain next turns s = .finished (.ok bs, t) := by
  induction bs generalizing s turns with
  | nil =>
    obtain ⟨n, rfl⟩ : ∃ n, turns = n + 1 := Nat.exists_eq_succ_of_ne_zero (Nat.ne_of_gt enough)
    rw [drain]
    rcases called : next s with ⟨_, s'⟩
    rw [Passes, called] at passes
    obtain rfl := passes
    exact ⟨s', rfl⟩
  | cons b bs ih =>
    obtain ⟨n, rfl⟩ : ∃ n, turns = n + 1 := Nat.exists_eq_succ_of_ne_zero (Nat.ne_of_gt (Nat.zero_lt_of_lt enough))
    obtain ⟨given, rest⟩ := passes
    rw [drain]
    rcases called : next s with ⟨_, s'⟩
    rw [called] at given rest
    obtain rfl := given
    obtain ⟨t, done⟩ := ih rest (Nat.lt_of_succ_lt_succ enough)
    dsimp only at done ⊢
    rw [done]
    exact ⟨t, rfl⟩

theorem drain_keeps {σ ε β : Type} {next : σ → Except ε (Option β) × σ} {I : σ → Prop} (keeps : ∀ s, I s → I (next s).2)
    {turns : Nat} {s : σ} {r : Except ε (List β) × σ} (start : I s) (done : drain next turns s = .finished r) : I r.2 := by
  induction turns generalizing s r with
  | zero => cases done
  | succ turns ih =>
    have after := keeps s start
    rw [drain] at done
    rcases called : next s with ⟨_ | _ | b, s'⟩
    · rw [called] at done after
      obtain rfl := Outcome.finished.inj done
      exact after
    · rw [called] at done after
      obtain rfl := Outcome.finished.inj done
      exact after
    · rw [called] at done after
      dsimp only at done
      cases rest : drain next turns s' with
      | finished r' =>
        have kept := ih after rest
        rw [rest] at done
        obtain rfl := Outcome.finished.inj done
        exact kept
      | _ =>
        rw [rest] at done
        cases done

structure Cursor (σ α : Type) where
  inside : σ → Bool
  /-- The item of the state, if it has one. -/
  find : σ → Option α
  advance : σ → σ

namespace Cursor

variable {σ α β ε : Type} (C : Cursor σ α)

/-- The next item, in a loop of at most so many turns. The state is behind the item, or where the scan ends. -/
def seek : Nat → σ → Option α × σ
  | 0, s => (none, s)
  | n + 1, s =>
    if C.inside s then
      match C.find s with
      | some a => (some a, C.advance s)
      | none => seek n (C.advance s)
    else (none, s)

/-- A call: what is made of the item, or what happens at the end. -/
def next (turns : Nat) (emit : α → Except ε β) (finish : σ → Except ε Unit) (s : σ) : Except ε (Option β) × σ :=
  match C.seek turns s with
  | (some a, s) => ((emit a).map some, s)
  | (none, s) => ((finish s).map fun _ => none, s)

theorem next_keeps {I : σ → Prop} (keeps : ∀ s, I s → I (C.advance s)) (turns : Nat) (emit : α → Except ε β)
    (finish : σ → Except ε Unit) {s : σ} (start : I s) : I (C.next turns emit finish s).2 := by
  have sought : I (C.seek turns s).2 := by
    induction turns generalizing s with
    | zero => exact start
    | succ turns ih =>
      unfold seek
      split
      · split
        · exact keeps s start
        · exact ih (keeps s start)
      · exact start
  unfold next
  rcases here : C.seek turns s with ⟨_ | a, t⟩
  · rw [here] at sought
    exact sought
  · rw [here] at sought
    exact sought

/-- The states that the scan visits, and where it ends. -/
inductive Walk : σ → List σ → σ → Prop where
  | stop {s : σ} : C.inside s = false → Walk s [] s
  | turn {s t : σ} {ss : List σ} : C.inside s = true → Walk (C.advance s) ss t → Walk s (s :: ss) t

variable {C}

theorem seek_enough {s t : σ} {ss : List σ} (walk : C.Walk s ss t) {n m : Nat} (enough : ss.length ≤ n)
    (enough' : ss.length ≤ m) : C.seek n s = C.seek m s := by
  induction walk generalizing n m with
  | stop outside =>
    cases n <;> cases m <;> simp [seek, outside]
  | turn inside _ ih =>
    cases n with
    | zero => exact absurd enough (by simp)
    | succ n =>
      cases m with
      | zero => exact absurd enough' (by simp)
      | succ m =>
        simp only [seek, inside, if_true]
        rw [ih (Nat.le_of_succ_le_succ enough) (Nat.le_of_succ_le_succ enough')]

theorem passes_congr {next : σ → Except ε (Option β) × σ} {s s' : σ} (same : next s = next s') (bs : List β) :
    Passes next s bs ↔ Passes next s' bs := by
  cases bs with
  | nil => simp only [Passes, same]
  | cons b bs => simp only [Passes, same]

variable {emit : α → Except ε β} {finish : σ → Except ε Unit}

/-- The calls hand out what is found on the walk, and report the end if the walk ends well. -/
theorem passes_iff {s t : σ} {ss : List σ} (walk : C.Walk s ss t) {turns : Nat} (enough : ss.length ≤ turns) (bs : List β) :
    Passes (C.next turns emit finish) s bs ↔ (ss.filterMap C.find).map emit = bs.map .ok ∧ finish t = .ok () := by
  induction walk generalizing bs with
  | @stop s outside =>
    have ended : C.next turns emit finish s = ((finish s).map fun _ => none, s) := by
      unfold next
      cases turns <;> simp [seek, outside]
    cases bs with
    | nil =>
      simp only [Passes, ended, List.filterMap_nil, List.map_nil, true_and]
      cases finish s <;> simp [Except.map]
    | cons b bs =>
      simp only [Passes, ended, List.filterMap_nil, List.map_nil, List.map_cons]
      cases finish s <;> simp [Except.map]
  | @turn s t ss inside rest ih =>
    obtain ⟨n, rfl⟩ : ∃ n, turns = n + 1 := ⟨turns - 1, by rw [List.length_cons] at enough; omega⟩
    have fewer : ss.length ≤ n := Nat.le_of_succ_le_succ enough
    cases found : C.find s with
    | some a =>
      have given : C.next (n + 1) emit finish s = ((emit a).map some, C.advance s) := by
        simp [next, seek, inside, found]
      rw [List.filterMap_cons_some found, List.map_cons]
      cases bs with
      | nil =>
        simp only [Passes, given, List.map_nil]
        cases emit a <;> simp [Except.map]
      | cons b bs =>
        simp only [Passes, given, ih (Nat.le_succ_of_le fewer) bs, List.map_cons, List.cons.injEq]
        cases emit a <;> simp [Except.map, and_assoc]
    | none =>
      have skipped : C.next (n + 1) emit finish s = C.next (n + 1) emit finish (C.advance s) := by
        have later := seek_enough rest fewer (Nat.le_succ_of_le fewer)
        simp only [next]
        rw [← later]
        simp only [seek, inside, found, if_true]
      rw [List.filterMap_cons_none found, passes_congr skipped]
      exact ih (Nat.le_succ_of_le fewer) bs

theorem exists_walk (pos : σ → Nat) (I : σ → Prop) (stride n : Nat) (s : σ) {bound : Nat}
    (inside : ∀ s, I s → (C.inside s = true ↔ pos s < bound)) (advance : ∀ s, I s → pos (C.advance s) = pos s + stride)
    (keeps : ∀ s, I s → I (C.advance s)) (start : I s)
    (within : ∀ j < n, pos s + j * stride < bound) (reach : bound ≤ pos s + n * stride) :
    ∃ ss t, C.Walk s ss t ∧ ss.map pos = List.range' (pos s) n stride ∧ pos t = pos s + n * stride ∧ ∀ x ∈ ss, I x := by
  induction n generalizing s with
  | zero =>
    have outside : C.inside s = false := Bool.eq_false_iff.mpr fun within => by
      have before := (inside s start).mp within
      omega
    exact ⟨[], s, .stop outside, rfl, by omega, fun _ member => absurd member List.not_mem_nil⟩
  | succ n ih =>
    have here : C.inside s = true := (inside s start).mpr (by simpa using within 0 (Nat.succ_pos n))
    have later : ∀ j < n, pos (C.advance s) + j * stride < bound := by
      intro j less
      have next := within (j + 1) (Nat.succ_lt_succ less)
      rw [Nat.succ_mul] at next
      rw [advance s start]
      omega
    rw [Nat.succ_mul] at reach
    obtain ⟨ss, t, walk, visited, final, kept⟩ := ih (C.advance s) (keeps s start) later (by rw [advance s start]; omega)
    refine ⟨s :: ss, t, .turn here walk, ?_, ?_, ?_⟩
    · rw [List.map_cons, visited, advance s start, List.range'_succ]
    · rw [final, advance s start, Nat.succ_mul]
      omega
    · intro x member
      rcases List.mem_cons.mp member with rfl | member
      · exact start
      · exact kept x member

end Cursor

end EncryptedDedup
