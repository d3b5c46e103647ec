import Mathlib.Data.List.Induction
import Mathlib.Data.List.Nodup
import Mathlib.Data.List.Perm.Basic

/-!
# First occurrences

A sequence of labelled keys, in which a key belongs to the label it first occurs with.
-/

namespace EncryptedDedup

variable {κ σ : Type} [DecidableEq κ]

/-- The entries with a key that no earlier entry has. -/
def newcomers (l : List (κ × σ)) : List (κ × σ) :=
  l.foldl (fun t e => if e.1 ∈ t.map Prod.fst then t else t ++ [e]) []

def firstLabel (l : List (κ × σ)) (k : κ) : Option σ := (l.find? (fun e => e.1 = k)).map Prod.snd

@[simp] theorem newcomers_nil : newcomers ([] : List (κ × σ)) = [] := rfl

theorem firstLabel_isSome {l : List (κ × σ)} {k : κ} : (firstLabel l k).isSome ↔ k ∈ l.map Prod.fst := by
  rw [firstLabel, Option.isSome_map, List.find?_isSome, List.mem_map]
  simp only [decide_eq_true_eq]

theorem mem_keys_newcomers {l : List (κ × σ)} {k : κ} :
    k ∈ (newcomers l).map Prod.fst ↔ k ∈ l.map Prod.fst := by
  unfold newcomers
  induction l using List.reverseRecOn with
  | nil => rfl
  | append_singleton l e ih =>
    rw [List.foldl_append, List.foldl_cons, List.foldl_nil, List.map_append, List.mem_append, ← ih]
    split
    · rename_i known
      refine ⟨Or.inl, fun either => either.elim id fun last => ?_⟩
      rw [List.map_singleton, List.mem_singleton] at last
      exact last ▸ known
    · rw [List.map_append, List.mem_append]

theorem newcomers_concat (l : List (κ × σ)) (e : κ × σ) :
    newcomers (l ++ [e]) = if e.1 ∈ l.map Prod.fst then newcomers l else newcomers l ++ [e] := by
  have step : newcomers (l ++ [e]) =
      if e.1 ∈ (newcomers l).map Prod.fst then newcomers l else newcomers l ++ [e] := by
    rw [newcomers, List.foldl_append]
    rfl
  rw [step]
  simp only [mem_keys_newcomers]

theorem keys_newcomers_nodup (l : List (κ × σ)) : ((newcomers l).map Prod.fst).Nodup := by
  induction l using List.reverseRecOn with
  | nil => exact List.nodup_nil
  | append_singleton l e ih =>
    rw [newcomers_concat]
    split
    · exact ih
    · rename_i fresh
      rw [List.map_append, List.map_singleton, ← List.concat_eq_append]
      exact ih.concat fun known => fresh (mem_keys_newcomers.mp known)

theorem mem_newcomers {l : List (κ × σ)} {k : κ} {a : σ} :
    (k, a) ∈ newcomers l ↔ firstLabel l k = some a := by
  induction l using List.reverseRecOn with
  | nil => simp [firstLabel]
  | append_singleton l e ih =>
    have append : firstLabel (l ++ [e]) k = (firstLabel l k).or (if e.1 = k then some e.2 else none) := by
      rw [firstLabel, List.find?_append, Option.map_or, List.find?_singleton, ← firstLabel]
      split <;> simp_all
    rw [newcomers_concat, append]
    by_cases known : k ∈ l.map Prod.fst
    · obtain ⟨b, found⟩ := Option.isSome_iff_exists.mp (firstLabel_isSome.mpr known)
      rw [found, Option.some_or, ← found, ← ih]
      split
      · rfl
      · rename_i fresh
        rw [List.mem_append, List.mem_singleton]
        refine ⟨fun either => either.elim id fun last => ?_, Or.inl⟩
        exact absurd (last ▸ known) fresh
    · have absent : firstLabel l k = none := by
        rw [← Option.not_isSome_iff_eq_none]
        exact fun found => known (firstLabel_isSome.mp found)
      rw [absent, Option.none_or]
      rw [absent] at ih
      by_cases same : e.1 = k
      · subst same
        rw [if_neg known, if_pos rfl, List.mem_append, ih, List.mem_singleton, Option.some_inj, Prod.ext_iff]
        simp [eq_comm]
      · rw [if_neg same]
        split
        · exact ih
        · rw [List.mem_append, ih, List.mem_singleton]
          simp only [reduceCtorEq, false_or, iff_false]
          rintro rfl
          exact same rfl

theorem newcomers_replicate (n : Nat) (e : κ × σ) : newcomers (List.replicate (n + 1) e) = [e] := by
  induction n with
  | zero => rfl
  | succ n ih =>
    have known : e.1 ∈ (List.replicate (n + 1) e).map Prod.fst :=
      List.mem_map_of_mem (List.mem_replicate.mpr ⟨Nat.succ_ne_zero n, rfl⟩)
    rw [List.replicate_succ', newcomers_concat, if_pos known, ih]

/-! ### Every `p`-th occurrence -/

def timesSeen (l : List (κ × σ)) (k : κ) : Nat := (l.map Prod.fst).count k

theorem timesSeen_eq_zero {l : List (κ × σ)} {k : κ} : timesSeen l k = 0 ↔ k ∉ l.map Prod.fst := List.count_eq_zero

theorem timesSeen_pos {l : List (κ × σ)} {k : κ} : 0 < timesSeen l k ↔ k ∈ l.map Prod.fst := List.count_pos_iff

theorem timesSeen_concat (l : List (κ × σ)) (e : κ × σ) (k : κ) :
    timesSeen (l ++ [e]) k = timesSeen l k + if e.1 = k then 1 else 0 := by
  simp [timesSeen, List.count_singleton]

def everyNthFrom (p : Nat) : List κ → List (κ × σ) → List (κ × σ)
  | _, [] => []
  | before, e :: l =>
    if before.count e.1 % p = 0 then e :: everyNthFrom p (e.1 :: before) l else everyNthFrom p (e.1 :: before) l

/-- The entries with a key that a multiple of `p` earlier entries have. -/
def everyNth (p : Nat) (l : List (κ × σ)) : List (κ × σ) := everyNthFrom p [] l

theorem everyNth_concat (p : Nat) (l : List (κ × σ)) (e : κ × σ) :
    everyNth p (l ++ [e]) = everyNth p l ++ if timesSeen l e.1 % p = 0 then [e] else [] := by
  have after : ∀ before : List κ, everyNthFrom p before (l ++ [e]) = everyNthFrom p before l ++
      if (before.count e.1 + timesSeen l e.1) % p = 0 then [e] else [] := by
    induction l with
    | nil =>
      intro before
      simp only [List.nil_append, everyNthFrom, timesSeen, List.map_nil, List.count_nil, Nat.add_zero]
    | cons first l ih =>
      intro before
      have total : (first.1 :: before).count e.1 + timesSeen l e.1 =
          before.count e.1 + timesSeen (first :: l) e.1 := by
        rw [timesSeen, timesSeen, List.map_cons, List.count_cons, List.count_cons]
        omega
      rw [List.cons_append, everyNthFrom, everyNthFrom, ih, total]
      split <;> simp
  simpa [everyNth] using after []

/-- Of `n` entries with one key, `n / p` are kept, rounded up. -/
theorem timesSeen_everyNth {p : Nat} (positive : 0 < p) (l : List (κ × σ)) (k : κ) :
    timesSeen (everyNth p l) k = (timesSeen l k + (p - 1)) / p := by
  induction l using List.reverseRecOn with
  | nil => exact (Nat.div_eq_of_lt (by rw [timesSeen, List.map_nil, List.count_nil]; omega)).symm
  | append_singleton l e ih =>
    rw [timesSeen_concat, everyNth_concat]
    by_cases same : e.1 = k
    · subst same
      have step : timesSeen l e.1 + 1 + (p - 1) = timesSeen l e.1 + (p - 1) + 1 := by omega
      have whole : p ∣ timesSeen l e.1 + (p - 1) + 1 ↔ timesSeen l e.1 % p = 0 := by
        rw [show timesSeen l e.1 + (p - 1) + 1 = timesSeen l e.1 + p by omega,
          Nat.dvd_add_left (Nat.dvd_refl p), Nat.dvd_iff_mod_eq_zero]
      rw [if_pos rfl, step, Nat.succ_div, ← ih]
      simp only [whole]
      split
      · rw [timesSeen_concat, if_pos rfl]
      · rw [List.append_nil, Nat.add_zero]
    · rw [if_neg same, Nat.add_zero, ← ih]
      split
      · rw [timesSeen_concat, if_neg same, Nat.add_zero]
      · rw [List.append_nil]

theorem mem_keys_everyNth {p : Nat} (positive : 0 < p) {l : List (κ × σ)} {k : κ} :
    k ∈ (everyNth p l).map Prod.fst ↔ k ∈ l.map Prod.fst := by
  rw [← timesSeen_pos, ← timesSeen_pos, timesSeen_everyNth positive, Nat.div_pos_iff]
  omega

theorem nodup_everyNth_filter {p : Nat} (positive : 0 < p) (l : List (κ × σ)) (keep : κ → Bool) :
    (((everyNth p l).map Prod.fst).filter keep).Nodup ↔ ∀ k ∈ l.map Prod.fst, keep k → timesSeen l k ≤ p := by
  have once : ∀ k, timesSeen (everyNth p l) k ≤ 1 ↔ timesSeen l k ≤ p := by
    intro k
    rw [timesSeen_everyNth positive, ← Nat.lt_succ_iff, Nat.div_lt_iff_lt_mul positive]
    omega
  rw [List.nodup_iff_count_le_one]
  constructor
  · intro single k _ kept
    have count := single k
    rw [List.count_filter kept] at count
    exact (once k).mp count
  · intro few k
    by_cases member : k ∈ ((everyNth p l).map Prod.fst).filter keep
    · obtain ⟨inside, kept⟩ := List.mem_filter.mp member
      rw [List.count_filter kept]
      exact (once k).mpr (few k ((mem_keys_everyNth positive).mp inside) kept)
    · rw [List.count_eq_zero.mpr member]
      exact Nat.zero_le 1

/-! ### Groups -/

variable [DecidableEq σ]

omit [DecidableEq κ] in
theorem flatMap_filter_perm {labels : List σ} (distinct : labels.Nodup) {l : List (κ × σ)}
    (labelled : ∀ e ∈ l, e.2 ∈ labels) : (labels.flatMap fun a => l.filter fun e => e.2 = a).Perm l := by
  induction labels generalizing l with
  | nil =>
    have none_left : l = [] := List.eq_nil_iff_forall_not_mem.mpr fun e member => nomatch labelled e member
    rw [none_left]
    exact List.Perm.refl _
  | cons a labels ih =>
    obtain ⟨fresh, distinct⟩ := List.nodup_cons.mp distinct
    rw [List.flatMap_cons]
    have rest : (labels.flatMap fun b => l.filter fun e => e.2 = b) =
        labels.flatMap fun b => (l.filter fun e => ¬ e.2 = a).filter fun e => e.2 = b := by
      apply List.flatMap_congr
      intro b member
      rw [List.filter_filter]
      apply List.filter_congr
      intro e _
      by_cases same : e.2 = b
      · have other : ¬ e.2 = a := by
          rintro rfl
          exact fresh (same ▸ member)
        rw [decide_eq_true same, decide_eq_true other, Bool.and_self]
      · rw [decide_eq_false same, Bool.false_and]
    have others : (labels.flatMap fun b => (l.filter fun e => ¬ e.2 = a).filter fun e => e.2 = b).Perm
        (l.filter fun e => ¬ e.2 = a) := by
      apply ih distinct
      intro e member
      obtain ⟨inside, other⟩ := List.mem_filter.mp member
      exact (List.mem_cons.mp (labelled e inside)).resolve_left (by simpa using other)
    rw [rest]
    refine (List.Perm.append_left _ others).trans ?_
    have halves := List.filter_append_perm (fun e : κ × σ => decide (e.2 = a)) l
    simpa using halves

/-- The keys that first occur with a label, in order. -/
def group (l : List (κ × σ)) (a : σ) : List κ := ((newcomers l).filter (fun e => e.2 = a)).map Prod.fst

@[simp] theorem group_nil (a : σ) : group ([] : List (κ × σ)) a = [] := rfl

theorem mem_group {l : List (κ × σ)} {k : κ} {a : σ} : k ∈ group l a ↔ firstLabel l k = some a := by
  rw [← mem_newcomers, group, List.mem_map]
  simp only [List.mem_filter, decide_eq_true_eq]
  constructor
  · rintro ⟨⟨_, _⟩, ⟨member, rfl⟩, rfl⟩
    exact member
  · exact fun member => ⟨(k, a), ⟨member, rfl⟩, rfl⟩

theorem mem_keys_of_mem_group {l : List (κ × σ)} {k : κ} {a : σ} (member : k ∈ group l a) :
    k ∈ l.map Prod.fst := by
  rw [← firstLabel_isSome, mem_group.mp member]
  rfl

theorem group_nodup (l : List (κ × σ)) (a : σ) : (group l a).Nodup :=
  (keys_newcomers_nodup l).sublist (List.filter_sublist.map Prod.fst)

theorem group_disjoint (l : List (κ × σ)) {a b : σ} (different : a ≠ b) :
    List.Disjoint (group l a) (group l b) := by
  intro k inA inB
  rw [mem_group] at inA inB
  exact different (Option.some.inj (inA.symm.trans inB))

theorem group_concat_old {l : List (κ × σ)} {k : κ} (known : k ∈ l.map Prod.fst) (a b : σ) :
    group (l ++ [(k, a)]) b = group l b := by
  rw [group, newcomers_concat, if_pos known, ← group]

theorem group_concat_new {l : List (κ × σ)} {k : κ} (fresh : k ∉ l.map Prod.fst) (a b : σ) :
    group (l ++ [(k, a)]) b = if b = a then group l b ++ [k] else group l b := by
  rw [group, newcomers_concat, if_neg fresh, List.filter_append, List.map_append, ← group]
  by_cases same : b = a
  · simp [same]
  · simp [same, Ne.symm same]

end EncryptedDedup
