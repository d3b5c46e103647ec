import EncryptedDedup.Lib.Loop

/-!
# Programs with a state and exceptions

A program changes a state, and gives a value or throws. What it changed before it threw stays.
-/

namespace EncryptedDedup

def Program (σ ε α : Type) : Type := σ → Outcome (σ × Except ε α)

namespace Program

variable {σ ε α β : Type}

instance instMonad : Monad (Program σ ε) where
  pure a := fun s => .finished (s, .ok a)
  bind p f := fun s =>
    match p s with
    | .finished (t, .ok a) => f a t
    | .finished (t, .error e) => .finished (t, .error e)
    | .undefined => .undefined
    | .running => .running

def throw (e : ε) : Program σ ε α := fun s => .finished (s, .error e)

def get : Program σ ε σ := fun s => .finished (s, .ok s)

def modify (f : σ → σ) : Program σ ε Unit := fun s => .finished (f s, .ok ())

def handle (p : Program σ ε α) (h : ε → Program σ ε α) : Program σ ε α := fun s =>
  match p s with
  | .finished (t, .error e) => h e t
  | o => o

/-- From `s`, the program gives `a` and ends in `t`. -/
def Gives (p : Program σ ε α) (s : σ) (a : α) (t : σ) : Prop := p s = .finished (t, .ok a)

def Throws (p : Program σ ε α) (s : σ) (e : ε) (t : σ) : Prop := p s = .finished (t, .error e)

/-- From `s`, the program gives something. -/
def ends (p : Program σ ε α) (s : σ) : Bool :=
  match p s with
  | .finished (_, .ok _) => true
  | _ => false

def left (p : Program σ ε α) (s : σ) : σ :=
  match p s with
  | .finished (t, _) => t
  | _ => s

variable {p : Program σ ε α} {f : α → Program σ ε β} {s t u : σ} {a : α} {b : β} {e : ε}

theorem gives_left (ended : p.ends s = true) : ∃ a, p.Gives s a (p.left s) := by
  unfold ends at ended
  unfold left Gives
  split at ended
  · rename_i t a result
    exact ⟨a, by rw [result]⟩
  · cases ended

theorem gives_pure (a : α) (s : σ) : (pure a : Program σ ε α).Gives s a s := rfl

theorem gives_modify (g : σ → σ) (s : σ) : (modify g : Program σ ε Unit).Gives s () (g s) := rfl

theorem Gives.bind (first : p.Gives s a t) (second : (f a).Gives t b u) : (p >>= f).Gives s b u := by
  have run : (p >>= f) s = f a t := by
    simp only [Bind.bind]
    rw [first]
  exact run.trans second

theorem Gives.bind_throws (first : p.Gives s a t) (second : (f a).Throws t e u) : (p >>= f).Throws s e u := by
  have run : (p >>= f) s = f a t := by
    simp only [Bind.bind]
    rw [first]
  exact run.trans second

theorem Gives.of_bind (given : (p >>= f).Gives s b u) : ∃ a t, p.Gives s a t ∧ (f a).Gives t b u := by
  change (p >>= f) s = _ at given
  simp only [Bind.bind] at given
  cases run : p s with
  | finished r =>
    obtain ⟨t, a | a⟩ := r
    · rw [run] at given
      cases given
    · rw [run] at given
      exact ⟨a, t, run, given⟩
  | undefined =>
    rw [run] at given
    cases given
  | running =>
    rw [run] at given
    cases given

theorem Throws.bind (first : p.Throws s e t) : (p >>= f).Throws s e t := by
  change (p >>= f) s = _
  simp only [Bind.bind]
  rw [first]

theorem gives_get {f : σ → Program σ ε β} (rest : (f s).Gives s b u) : (get >>= f).Gives s b u := rest

theorem throws_get {f : σ → Program σ ε β} (rest : (f s).Throws s e u) : (get >>= f).Throws s e u := rest

theorem gives_modify_bind {g : σ → σ} {f : Unit → Program σ ε β} (rest : (f ()).Gives (g s) b u) :
    (modify g >>= f).Gives s b u := rest

theorem throws_modify_bind {g : σ → σ} {f : Unit → Program σ ε β} (rest : (f ()).Throws (g s) e u) :
    (modify g >>= f).Throws s e u := rest

theorem Gives.handle {h : ε → Program σ ε α} (done : p.Gives s a t) : (p.handle h).Gives s a t := by
  change p.handle h s = _
  rw [Program.handle, done]

theorem Gives.unique {a' : α} {t' : σ} (first : p.Gives s a t) (second : p.Gives s a' t') : a = a' ∧ t = t' := by
  obtain ⟨states, values⟩ := Prod.mk.inj (Outcome.finished.inj (first.symm.trans second))
  exact ⟨Except.ok.inj values, states⟩

theorem Throws.not_gives (thrown : p.Throws s e t) : ¬ p.Gives s a u := by
  intro given
  obtain ⟨-, values⟩ := Prod.mk.inj (Outcome.finished.inj (thrown.symm.trans given))
  cases values

/-! ### What a program gives -/

theorem gives_get_iff {f : σ → Program σ ε β} {s u : σ} {b : β} : (get >>= f).Gives s b u ↔ (f s).Gives s b u := Iff.rfl

theorem gives_modify_iff {g : σ → σ} {f : Unit → Program σ ε β} {s u : σ} {b : β} :
    (modify g >>= f).Gives s b u ↔ (f ()).Gives (g s) b u := Iff.rfl

theorem gives_pure_iff {a b : α} {s u : σ} : (pure a : Program σ ε α).Gives s b u ↔ a = b ∧ s = u := by
  constructor
  · intro given
    obtain ⟨rfl, same⟩ := Prod.mk.inj (Outcome.finished.inj given)
    exact ⟨Except.ok.inj same, rfl⟩
  · rintro ⟨rfl, rfl⟩
    rfl

theorem not_gives_throw {e : ε} {a : α} {s u : σ} : ¬ (throw e : Program σ ε α).Gives s a u := nofun

/-! ### What a program leaves -/

variable {I J : σ → Prop}

/-- However the program ends from `s`, it leaves a state with the property. -/
def Leaves (p : Program σ ε α) (s : σ) (I : σ → Prop) : Prop := ∀ t r, p s = .finished (t, r) → I t

theorem Gives.leaves {a : α} {t : σ} (given : p.Gives s a t) (kept : I t) : p.Leaves s I := by
  intro t' r run
  obtain ⟨rfl, -⟩ := Prod.mk.inj (Outcome.finished.inj (given.symm.trans run))
  exact kept

theorem leaves_throw (e : ε) (kept : I s) : (throw e : Program σ ε α).Leaves s I := by
  intro t r run
  obtain ⟨rfl, -⟩ := Prod.mk.inj (Outcome.finished.inj run)
  exact kept

theorem leaves_pure (a : α) (kept : I s) : (pure a : Program σ ε α).Leaves s I := (gives_pure a s).leaves kept

theorem leaves_modify (g : σ → σ) (kept : I (g s)) : (modify g : Program σ ε Unit).Leaves s I :=
  (gives_modify g s).leaves kept

theorem leaves_get {f : σ → Program σ ε β} (rest : (f s).Leaves s I) : (get >>= f).Leaves s I := rest

theorem leaves_modify_bind {g : σ → σ} {f : Unit → Program σ ε β} (rest : (f ()).Leaves (g s) I) :
    (modify g >>= f).Leaves s I := rest

theorem Leaves.bind (first : p.Leaves s J) (thrown : ∀ t, J t → I t) (rest : ∀ a t, J t → (f a).Leaves t I) :
    (p >>= f).Leaves s I := by
  intro u r run
  change (p >>= f) s = _ at run
  simp only [Bind.bind] at run
  cases left : p s with
  | finished q =>
    obtain ⟨t, e | a⟩ := q
    · rw [left] at run
      obtain ⟨rfl, -⟩ := Prod.mk.inj (Outcome.finished.inj run)
      exact thrown t (first t _ left)
    · rw [left] at run
      exact rest a t (first t _ left) u r run
  | undefined =>
    rw [left] at run
    cases run
  | running =>
    rw [left] at run
    cases run

theorem Leaves.handle {h : ε → Program σ ε α} (first : p.Leaves s J) (done : ∀ t, J t → I t)
    (caught : ∀ e t, J t → (h e).Leaves t I) : (p.handle h).Leaves s I := by
  intro u r run
  rw [Program.handle] at run
  cases left : p s with
  | finished q =>
    obtain ⟨t, e | a⟩ := q
    · rw [left] at run
      exact caught e t (first t _ left) u r run
    · rw [left] at run
      obtain ⟨rfl, -⟩ := Prod.mk.inj (Outcome.finished.inj run)
      exact done t (first t _ left)
  | undefined =>
    rw [left] at run
    cases run
  | running =>
    rw [left] at run
    cases run

theorem Gives.of_handle {h : ε → Program σ ε α} {a : α} {t : σ} (never : ∀ e u, ¬ (h e).Gives u a t)
    (given : (p.handle h).Gives s a t) : p.Gives s a t := by
  change p.handle h s = _ at given
  rw [Program.handle] at given
  cases left : p s with
  | finished q =>
    obtain ⟨u, e | b⟩ := q
    · rw [left] at given
      exact absurd given (never e u)
    · rw [left] at given
      exact left.trans given
  | undefined =>
    rw [left] at given
    cases given
  | running =>
    rw [left] at given
    cases given

end Program

end EncryptedDedup
