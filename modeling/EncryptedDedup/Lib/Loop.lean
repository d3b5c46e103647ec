import Mathlib.Data.Finset.Card
import Mathlib.Data.Finset.Dedup

/-!
# While loops

A loop over an explicit state. The body may run into undefined behaviour, which ends the run
without a result.
-/

namespace EncryptedDedup

structure Loop (σ : Type) where
  guard : σ → Bool
  body : σ → Option σ

/-- How a run with bounded fuel ends. -/
inductive Outcome (σ : Type) where
  | finished (s : σ)
  | undefined
  | running

def Outcome.result {σ : Type} : Outcome σ → Option σ
  | .finished s => some s
  | _ => none

theorem Outcome.finished_of_result {σ : Type} {o : Outcome σ} {s : σ} (h : o.result = some s) :
    o = .finished s := by
  cases o with
  | finished t => exact congrArg Outcome.finished (Option.some.inj h)
  | _ => cases h

def Outcome.map {σ τ : Type} (f : σ → τ) : Outcome σ → Outcome τ
  | .finished s => .finished (f s)
  | .undefined => .undefined
  | .running => .running

namespace Loop

variable {σ τ : Type} (L : Loop σ)

def run : Nat → σ → Outcome σ
  | 0, s => if L.guard s then .running else .finished s
  | fuel + 1, s =>
    if L.guard s then
      match L.body s with
      | none => .undefined
      | some t => run fuel t
    else .finished s

/-- From `s`, the loop condition is tested in `t` after `n` iterations. -/
inductive Tests (s : σ) : Nat → σ → Prop where
  | enter : Tests s 0 s
  | next {n : Nat} {t u : σ} : Tests s n t → L.guard t = true → L.body t = some u → Tests s (n + 1) u

theorem Tests.prepend {L : Loop σ} {s t u : σ} {n : Nat} (guarded : L.guard s = true)
    (moved : L.body s = some t) (rest : L.Tests t n u) : L.Tests s (n + 1) u := by
  induction rest with
  | enter => exact .next .enter guarded moved
  | next _ guarded' moved' ih => exact .next ih guarded' moved'

def after : Nat → σ → Option σ
  | 0, s => some s
  | n + 1, s => if L.guard s then (L.body s).bind (after n) else none

theorem tests_of_after {s t : σ} {n : Nat} (h : L.after n s = some t) : L.Tests s n t := by
  induction n generalizing s with
  | zero =>
    obtain rfl := Option.some.inj h
    exact .enter
  | succ n ih =>
    rw [after] at h
    split at h
    · rename_i guarded
      obtain ⟨u, moved, rest⟩ := Option.bind_eq_some_iff.mp h
      exact .prepend guarded moved (ih rest)
    · cases h

theorem Tests.idle {L : Loop σ} {s t : σ} {n : Nat} (stopped : L.guard s = false) (h : L.Tests s n t) :
    t = s := by
  induction h with
  | enter => rfl
  | next _ guarded _ ih =>
    rw [ih, stopped] at guarded
    cases guarded

/-- What holds on entry and is kept by every iteration holds at every test of the condition. -/
theorem invariant {I : σ → Prop} {s : σ} (start : I s)
    (keep : ∀ t u, I t → L.guard t = true → L.body t = some u → I u) {n : Nat} {t : σ}
    (h : L.Tests s n t) : I t := by
  induction h with
  | enter => exact start
  | next _ guarded moved ih => exact keep _ _ ih guarded moved

theorem run_ends {s : σ} {bound : Nat}
    (within : ∀ n t, L.Tests s n t → L.guard t = true → n < bound) : L.run bound s ≠ .running := by
  induction bound generalizing s with
  | zero =>
    rw [run]
    split
    · rename_i guarded
      exact absurd (within 0 s .enter guarded) (Nat.not_lt_zero 0)
    · exact fun same => nomatch same
  | succ bound ih =>
    rw [run]
    split
    · rename_i guarded
      cases moved : L.body s with
      | none => exact fun same => nomatch same
      | some t =>
        refine ih fun n u tested guarded' => ?_
        have shifted := within (n + 1) u (.prepend guarded moved tested) guarded'
        omega
    · exact fun same => nomatch same

theorem run_finished {s t : σ} {fuel : Nat} (h : L.run fuel s = .finished t) :
    ∃ n ≤ fuel, L.Tests s n t ∧ L.guard t = false := by
  induction fuel generalizing s with
  | zero =>
    rw [run] at h
    split at h
    · cases h
    · rename_i stopped
      obtain rfl := Outcome.finished.inj h
      exact ⟨0, Nat.le_refl 0, .enter, Bool.eq_false_iff.mpr stopped⟩
  | succ fuel ih =>
    rw [run] at h
    split at h
    · rename_i guarded
      cases moved : L.body s with
      | none => simp [moved] at h
      | some u =>
        rw [moved] at h
        obtain ⟨n, le, tested, stopped⟩ := ih h
        exact ⟨n + 1, Nat.succ_le_succ le, .prepend guarded moved tested, stopped⟩
    · rename_i stopped
      obtain rfl := Outcome.finished.inj h
      exact ⟨0, Nat.zero_le _, .enter, Bool.eq_false_iff.mpr stopped⟩

theorem run_defined {s : σ} {fuel : Nat}
    (defined : ∀ n t, L.Tests s n t → L.guard t = true → ∃ u, L.body t = some u)
    (ends : L.run fuel s ≠ .running) : ∃ t, L.run fuel s = .finished t := by
  induction fuel generalizing s with
  | zero =>
    rw [run] at ends ⊢
    split at ends
    · exact absurd rfl ends
    · rename_i stopped
      exact ⟨s, by rw [if_neg stopped]⟩
  | succ fuel ih =>
    rw [run] at ends ⊢
    by_cases guarded : L.guard s = true
    · obtain ⟨u, moved⟩ := defined 0 s .enter guarded
      rw [if_pos guarded, moved] at ends ⊢
      exact ih (fun n t tested => defined (n + 1) t (.prepend guarded moved tested)) ends
    · exact ⟨s, by rw [if_neg guarded]⟩

theorem run_next {s t : σ} (guarded : L.guard s = true) (moved : L.body s = some t) (fuel : Nat) :
    L.run (fuel + 1) s = L.run fuel t := by
  rw [run, if_pos guarded, moved]

theorem run_stopped {s : σ} (stopped : L.guard s = false) (fuel : Nat) : L.run fuel s = .finished s := by
  cases fuel with
  | zero => rw [run, stopped]; rfl
  | succ fuel => rw [run, stopped]; rfl

theorem run_stuck {s t : σ} (guarded : L.guard s = true) (stuck : L.body s = none) (fuel : Nat) :
    L.run fuel s ≠ .finished t := by
  cases fuel with
  | zero => simp [run, guarded]
  | succ fuel => simp [run, guarded, stuck]

theorem run_of_finished {s t : σ} {n : Nat} (done : L.run n s = .finished t) (m : Nat) :
    L.run m s = .running ∨ L.run m s = .finished t := by
  induction n generalizing s m with
  | zero =>
    rw [run] at done
    split at done
    · cases done
    · rename_i stopped
      obtain rfl := Outcome.finished.inj done
      exact .inr (L.run_stopped (Bool.eq_false_iff.mpr stopped) m)
  | succ n ih =>
    rw [run] at done
    split at done
    · rename_i guarded
      cases moved : L.body s with
      | none => simp [moved] at done
      | some u =>
        rw [moved] at done
        cases m with
        | zero => exact .inl (by rw [run, if_pos guarded])
        | succ m =>
          rw [run, if_pos guarded, moved]
          exact ih done m
    · rename_i stopped
      obtain rfl := Outcome.finished.inj done
      exact .inr (L.run_stopped (Bool.eq_false_iff.mpr stopped) m)

theorem run_forever {I : σ → Prop} {s : σ} (start : I s)
    (keep : ∀ t, I t → L.guard t = true ∧ ∃ u, L.body t = some u ∧ I u) (fuel : Nat) : L.run fuel s = .running := by
  induction fuel generalizing s with
  | zero => rw [run, if_pos (keep s start).1]
  | succ fuel ih =>
    obtain ⟨guarded, u, moved, kept⟩ := keep s start
    rw [run, if_pos guarded, moved]
    exact ih kept

/-- A loop whose iterations keep an invariant and make a measure smaller finishes, and the invariant
holds at the end. -/
theorem run_descends {I : σ → Prop} {μ : σ → Nat}
    (keep : ∀ t, I t → L.guard t = true → ∃ u, L.body t = some u ∧ I u ∧ μ u < μ t) {s : σ} (start : I s)
    {fuel : Nat} (enough : μ s ≤ fuel) : ∃ t, L.run fuel s = .finished t ∧ I t ∧ L.guard t = false := by
  induction fuel generalizing s with
  | zero =>
    have stopped : L.guard s = false := by
      by_contra guarded
      obtain ⟨u, -, -, less⟩ := keep s start (Bool.not_eq_false _ ▸ guarded)
      omega
    exact ⟨s, L.run_stopped stopped 0, start, stopped⟩
  | succ fuel ih =>
    by_cases guarded : L.guard s = true
    · obtain ⟨u, moved, kept, less⟩ := keep s start guarded
      obtain ⟨t, finished, ended⟩ := ih kept (by omega)
      exact ⟨t, by rw [run, if_pos guarded, moved]; exact finished, ended⟩
    · have stopped := Bool.eq_false_iff.mpr guarded
      exact ⟨s, L.run_stopped stopped (fuel + 1), start, stopped⟩

/-! ### Worklists -/

/-- A loop that takes one item per iteration, and never pushes a key again, ends: the keys it can
push lie in a finite set. -/
theorem worklist_bound {κ : Type} [DecidableEq κ] (I : σ → Prop) (pushed : σ → List κ) (pending : σ → Nat)
    {keys : Finset κ} {s : σ} (start : I s)
    (keep : ∀ t u, I t → L.guard t = true → L.body t = some u → I u)
    (distinct : ∀ t, I t → (pushed t).Nodup)
    (filled : ∀ t, I t → L.guard t = true → 0 < pending t)
    (grow : ∀ t u, I t → L.guard t = true → L.body t = some u →
      ∃ new, pushed u = pushed t ++ new ∧ (∀ k ∈ new, k ∈ keys) ∧ pending u + 1 = pending t + new.length)
    {n : Nat} {t : σ} (tested : L.Tests s n t) (guarded : L.guard t = true) :
    n < pending s + keys.card := by
  have counted : I t ∧ ∃ new, pushed t = pushed s ++ new ∧ (∀ k ∈ new, k ∈ keys) ∧
      pending t + n = pending s + new.length := by
    clear guarded
    induction tested with
    | enter => exact ⟨start, [], by simp, by simp, by simp⟩
    | next _ guarded moved ih =>
      obtain ⟨holds, new, grown, inside, size⟩ := ih
      obtain ⟨more, grown', inside', size'⟩ := grow _ _ holds guarded moved
      refine ⟨keep _ _ holds guarded moved, new ++ more, ?_, ?_, ?_⟩
      · rw [grown', grown, List.append_assoc]
      · intro k member
        rcases List.mem_append.mp member with old | late
        · exact inside k old
        · exact inside' k late
      · rw [List.length_append]
        omega
  obtain ⟨holds, new, grown, inside, size⟩ := counted
  have unique : new.Nodup := by
    have all := distinct t holds
    rw [grown] at all
    exact (List.nodup_append.mp all).2.1
  have few : new.length ≤ keys.card := by
    rw [← List.toFinset_card_of_nodup unique]
    apply Finset.card_le_card
    intro k member
    exact inside k (List.mem_toFinset.mp member)
  have some_left := filled t holds guarded
  omega

/-! ### The end of a run -/

theorem Tests.first {L : Loop σ} {s t : σ} {n : Nat} (h : L.Tests s (n + 1) t) :
    L.guard s = true ∧ ∃ u, L.body s = some u ∧ L.Tests u n t := by
  induction n generalizing t with
  | zero =>
    cases h with
    | next before guarded moved =>
      cases before
      exact ⟨guarded, t, moved, .enter⟩
  | succ n ih =>
    cases h with
    | next before guarded moved =>
      obtain ⟨guarded', u, moved', rest⟩ := ih before
      exact ⟨guarded', u, moved', .next rest guarded moved⟩

theorem Tests.rest {L : Loop σ} {s t u : σ} {m n : Nat} (h : L.Tests s m t) (final : L.Tests s n u)
    (stopped : L.guard u = false) : ∃ k, L.Tests t k u := by
  induction h with
  | enter => exact ⟨n, final⟩
  | next _ guarded moved ih =>
    obtain ⟨k, rest⟩ := ih
    cases k with
    | zero =>
      cases rest
      rw [stopped] at guarded
      cases guarded
    | succ k =>
      obtain ⟨-, v, moved', rest'⟩ := rest.first
      rw [moved] at moved'
      obtain rfl := Option.some.inj moved'
      exact ⟨k, rest'⟩

/-! ### Two loops -/

theorem run_map (M : Loop τ) {g : σ → τ} (guards : ∀ s, M.guard (g s) = L.guard s)
    (bodies : ∀ s, M.body (g s) = (L.body s).map g) (fuel : Nat) (s : σ) : M.run fuel (g s) = (L.run fuel s).map g := by
  induction fuel generalizing s with
  | zero =>
    rw [run, run, guards]
    split <;> rfl
  | succ fuel ih =>
    rw [run, run, guards, bodies]
    split
    · cases L.body s with
      | none => rfl
      | some t => exact ih t
    · rfl

/-- Two loops run in related states until they come apart for good. -/
theorem simulate (M : Loop τ) (R Apart : σ → τ → Prop) {s : σ} {s' : τ} (start : R s s' ∨ Apart s s')
    (keep : ∀ t t' u, R t t' → L.guard t = true → L.body t = some u →
      M.guard t' = true ∧ ∃ u', M.body t' = some u' ∧ (R u u' ∨ Apart u u'))
    (apart : ∀ t t' u, Apart t t' → L.body t = some u → Apart u t')
    {n : Nat} {t : σ} (h : L.Tests s n t) :
    (∃ t', M.Tests s' n t' ∧ R t t') ∨ ∃ m t', M.Tests s' m t' ∧ Apart t t' := by
  induction h with
  | enter =>
    rcases start with related | gone
    · exact Or.inl ⟨s', .enter, related⟩
    · exact Or.inr ⟨0, s', .enter, gone⟩
  | next tested guarded moved ih =>
    rcases ih with ⟨t', tested', related⟩ | ⟨m, t', tested', gone⟩
    · obtain ⟨guarded', u', moved', related' | gone⟩ := keep _ _ _ related guarded moved
      · exact Or.inl ⟨u', .next tested' guarded' moved', related'⟩
      · exact Or.inr ⟨_, u', .next tested' guarded' moved', gone⟩
    · exact Or.inr ⟨m, t', tested', apart _ _ _ gone moved⟩

end Loop

end EncryptedDedup
