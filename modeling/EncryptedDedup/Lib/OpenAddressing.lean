import Mathlib.Data.Finset.Card
import Mathlib.Data.Nat.Find
import Mathlib.Logic.Function.Iterate

/-!
# Open addressing

Tables whose slots are free, removed or hold a key. The slots of a key are probed from its home on
until a free slot or the home is met.
-/

namespace EncryptedDedup.OpenAddressing

inductive Slot (κ : Type) where
  | free
  | removed
  | held (k : κ)
  deriving DecidableEq

variable {κ : Type} {slot : Nat → Slot κ} {next : Nat → Nat} {home : Nat}

/-! ### Paths -/

def Passable (slot : Nat → Slot κ) (next : Nat → Nat) (home n : Nat) : Prop := ∀ m < n, slot (next^[m] home) ≠ .free

def Reached (slot : Nat → Slot κ) (next : Nat → Nat) (home i : Nat) : Prop :=
  ∃ n, next^[n] home = i ∧ Passable slot next home n

theorem Passable.mono {n m : Nat} (path : Passable slot next home n) (less : m ≤ n) : Passable slot next home m :=
  fun l below => path l (Nat.lt_of_lt_of_le below less)

theorem Passable.succ {n : Nat} (path : Passable slot next home n) (taken : slot (next^[n] home) ≠ .free) :
    Passable slot next home (n + 1) := by
  intro m below
  rcases Nat.lt_succ_iff_lt_or_eq.mp below with before | rfl
  · exact path m before
  · exact taken

theorem Passable.of_le {slot' : Nat → Slot κ} {n : Nat} (kept : ∀ i, slot' i = .free → slot i = .free)
    (path : Passable slot next home n) : Passable slot' next home n :=
  fun m below free => path m below (kept _ free)

theorem Reached.of_le {slot' : Nat → Slot κ} {i : Nat} (kept : ∀ i, slot' i = .free → slot i = .free)
    (reached : Reached slot next home i) : Reached slot' next home i := by
  obtain ⟨n, here, path⟩ := reached
  exact ⟨n, here, path.of_le kept⟩

theorem Reached.shortest {i : Nat} (reached : Reached slot next home i) :
    ∃ n, next^[n] home = i ∧ Passable slot next home n ∧ (∀ m < n, next^[m] home ≠ i) ∧
      ∀ m, 0 < m → m ≤ n → next^[m] home ≠ home := by
  classical
  obtain ⟨n, here, path⟩ := reached
  have found : ∃ n, next^[n] home = i := ⟨n, here⟩
  refine ⟨Nat.find found, Nat.find_spec found, path.mono (Nat.find_min' found here), fun m => Nat.find_min found, ?_⟩
  intro m positive within back
  have shorter : next^[Nat.find found - m] home = i := by
    have split := Function.iterate_add_apply next (Nat.find found - m) m home
    rw [Nat.sub_add_cancel within, back, Nat.find_spec found] at split
    exact split.symm
  exact Nat.find_min found (Nat.sub_lt_of_pos_le positive within) shorter

theorem iterate_lt {size : Nat} (start : home < size) (stays : ∀ j < size, next j < size) (n : Nat) :
    next^[n] home < size := by
  induction n with
  | zero => exact start
  | succ n ih =>
    rw [Function.iterate_succ_apply']
    exact stays _ ih

theorem Reached.lt {size i : Nat} (start : home < size) (stays : ∀ j < size, next j < size)
    (reached : Reached slot next home i) : i < size := by
  obtain ⟨n, here, -⟩ := reached
  rw [← here]
  exact iterate_lt start stays n

theorem length_lt {size n i : Nat} (start : home < size) (stays : ∀ j < size, next j < size)
    (here : next^[n] home = i) (first : ∀ m < n, next^[m] home ≠ i) : n < size := by
  have apart : Set.InjOn (fun m => next^[m] home) (Finset.range (n + 1)) := by
    have ordered : ∀ a b, a < b → b ≤ n → next^[a] home ≠ next^[b] home := by
      intro a b less within same
      have meets : next^[n - b + a] home = i := by
        rw [Function.iterate_add_apply, same, ← Function.iterate_add_apply, Nat.sub_add_cancel within, here]
      exact first (n - b + a) (by omega) meets
    intro a memberA b memberB same
    rw [Finset.mem_coe, Finset.mem_range] at memberA memberB
    rcases Nat.lt_trichotomy a b with less | equal | more
    · exact absurd same (ordered a b less (by omega))
    · exact equal
    · exact absurd same.symm (ordered b a more (by omega))
  have fits := Finset.card_le_card_of_injOn (s := Finset.range (n + 1)) (t := Finset.range size) _
    (fun m _ => Finset.mem_coe.mpr (Finset.mem_range.mpr (iterate_lt start stays m))) apart
  rw [Finset.card_range, Finset.card_range] at fits
  exact fits

theorem Reached.path {k : κ} {size i : Nat} (start : home < size) (stays : ∀ j < size, next j < size)
    (single : ∀ j, slot j = .held k → j = i) (reached : Reached slot next home i) :
    ∃ n < size, next^[n] home = i ∧ Passable slot next home n ∧ (∀ l < n, slot (next^[l] home) ≠ .held k) ∧
      ∀ l, 0 < l → l ≤ n → next^[l] home ≠ home := by
  obtain ⟨n, here, path, first, away⟩ := reached.shortest
  exact ⟨n, length_lt start stays here first, here, path, fun l below same => first l below (single _ same), away⟩

/-! ### Search -/

section
variable [DecidableEq κ]

/-- The slots behind `i`, of which at most `n` are probed. -/
def search (slot : Nat → Slot κ) (next : Nat → Nat) (k : κ) (home : Nat) : Nat → Nat → Option Nat
  | 0, _ => none
  | n + 1, i =>
    if slot (next i) = .free then none
    else if slot (next i) = .held k then some (next i)
    else if next i = home then none
    else search slot next k home n (next i)

def find (slot : Nat → Slot κ) (next : Nat → Nat) (k : κ) (home size : Nat) : Option Nat :=
  if slot home = .free then none
  else if slot home = .held k then some home
  else search slot next k home size home

theorem search_sound {k : κ} {n i j : Nat} (found : search slot next k home n i = some j) : slot j = .held k := by
  induction n generalizing i with
  | zero => cases found
  | succ n ih =>
    rw [search] at found
    split at found
    · cases found
    · split at found
      · rename_i held
        rwa [← Option.some.inj found]
      · split at found
        · cases found
        · exact ih found

theorem find_sound {k : κ} {size j : Nat} (found : find slot next k home size = some j) : slot j = .held k := by
  unfold find at found
  split at found
  · cases found
  · split at found
    · rename_i held
      rwa [← Option.some.inj found]
    · exact search_sound found

/-- The loop goes on along the path; the induction is on what is left of it. -/
theorem search_complete {k : κ} {n m fuel i : Nat} (here : next^[n] home = i) (held : slot i = .held k)
    (path : Passable slot next home n) (alone : ∀ l < n, slot (next^[l] home) ≠ .held k)
    (away : ∀ l, 0 < l → l ≤ n → next^[l] home ≠ home) (before : m < n) (enough : n - m ≤ fuel) :
    search slot next k home fuel (next^[m] home) = some i := by
  induction fuel generalizing m with
  | zero => omega
  | succ fuel ih =>
    rw [search, ← Function.iterate_succ_apply' next m home]
    rcases Nat.lt_or_ge (m + 1) n with more | last
    · rw [if_neg (path _ more), if_neg (alone _ more), if_neg (away _ (Nat.succ_pos m) before)]
      exact ih more (by omega)
    · obtain rfl : n = m + 1 := by omega
      have taken : slot i ≠ .free := by
        rw [held]
        exact fun same => nomatch same
      rw [here, if_neg taken, if_pos held]

theorem find_complete {k : κ} {size i : Nat} (start : home < size) (stays : ∀ j < size, next j < size)
    (held : slot i = .held k) (single : ∀ j, slot j = .held k → j = i) (reached : Reached slot next home i) :
    find slot next k home size = some i := by
  obtain ⟨n, short, here, path, alone, away⟩ := reached.path start stays single
  unfold find
  rcases Nat.eq_zero_or_pos n with rfl | positive
  · have at_home : home = i := here
    subst at_home
    rw [if_neg (by rw [held]; exact fun same => nomatch same), if_pos held]
  · have taken : slot home ≠ .free := path 0 positive
    have other : slot home ≠ .held k := alone 0 positive
    rw [if_neg taken, if_neg other]
    exact search_complete here held path alone away positive (Nat.le_of_lt short)

/-! ### Places for a key -/

inductive Place where
  | stored (i : Nat)
  | vacant (i : Nat)
  | full
  deriving DecidableEq

def Place.ofRemoved : Option Nat → Place
  | none => .full
  | some i => .vacant i

/-- The slots from `i` on. A key that cannot be in the table goes into the first removed slot at once. -/
def vacate (slot : Nat → Slot κ) (next : Nat → Nat) (k : κ) (mightExist : Bool) (home : Nat) :
    Nat → Nat → Option Nat → Place
  | 0, _, firstRemoved => .ofRemoved firstRemoved
  | n + 1, i, firstRemoved =>
    if slot i = .removed ∧ firstRemoved = none ∧ mightExist = false then .vacant i
    else
      let firstRemoved := if slot i = .removed ∧ firstRemoved = none then some i else firstRemoved
      if slot (next i) = .free then .vacant (firstRemoved.getD (next i))
      else if mightExist = true ∧ slot (next i) = .held k then .stored (next i)
      else if next i = home then .ofRemoved firstRemoved
      else vacate slot next k mightExist home n (next i) firstRemoved

def place (slot : Nat → Slot κ) (next : Nat → Nat) (k : κ) (mightExist : Bool) (home size : Nat) : Place :=
  if slot home = .free then .vacant home
  else if mightExist = true ∧ slot home = .held k then .stored home
  else vacate slot next k mightExist home size home none

structure Vacant (slot : Nat → Slot κ) (next : Nat → Nat) (home i : Nat) : Prop where
  unused : slot i = .free ∨ slot i = .removed
  reached : Reached slot next home i

omit [DecidableEq κ] in
theorem Vacant.ne_held {k : κ} {i : Nat} (vacant : Vacant slot next home i) : slot i ≠ .held k := by
  intro held
  rcases vacant.unused with free | removed
  · rw [free] at held
    cases held
  · rw [removed] at held
    cases held

omit [DecidableEq κ] in
theorem Vacant.ofRemoved {firstRemoved : Option Nat} {i : Nat}
    (removed : ∀ j, firstRemoved = some j → slot j = .removed ∧ Reached slot next home j)
    (vacant : Place.ofRemoved firstRemoved = .vacant i) : Vacant slot next home i := by
  cases firstRemoved with
  | none => cases vacant
  | some j =>
    cases vacant
    obtain ⟨unused, reached⟩ := removed i rfl
    exact ⟨.inr unused, reached⟩

theorem vacate_vacant {k : κ} {mightExist : Bool} {fuel m i : Nat} {firstRemoved : Option Nat}
    (path : Passable slot next home (m + 1))
    (removed : ∀ j, firstRemoved = some j → slot j = .removed ∧ Reached slot next home j)
    (result : vacate slot next k mightExist home fuel (next^[m] home) firstRemoved = .vacant i) :
    Vacant slot next home i := by
  induction fuel generalizing m firstRemoved with
  | zero => exact .ofRemoved removed result
  | succ fuel ih =>
    have here : Reached slot next home (next^[m] home) := ⟨m, rfl, path.mono (Nat.le_succ m)⟩
    rw [vacate] at result
    split at result
    · rename_i first
      cases result
      exact ⟨.inr first.1, here⟩
    · dsimp only at result
      have removed' : ∀ j, (if slot (next^[m] home) = .removed ∧ firstRemoved = none then some (next^[m] home)
          else firstRemoved) = some j → slot j = .removed ∧ Reached slot next home j := by
        intro j same
        split at same
        · rename_i first
          cases same
          exact ⟨first.1, here⟩
        · exact removed j same
      generalize (if slot (next^[m] home) = .removed ∧ firstRemoved = none then some (next^[m] home)
        else firstRemoved) = firstRemoved' at result removed'
      rw [← Function.iterate_succ_apply' next m home] at result
      split at result
      · rename_i free
        cases firstRemoved' with
        | none =>
          cases result
          exact ⟨.inl free, m + 1, rfl, path⟩
        | some j =>
          cases result
          obtain ⟨unused, reached⟩ := removed' _ rfl
          exact ⟨.inr unused, reached⟩
      · rename_i taken
        split at result
        · cases result
        · split at result
          · exact .ofRemoved removed' result
          · exact ih (path.succ taken) removed' result

theorem place_vacant {k : κ} {mightExist : Bool} {size i : Nat}
    (result : place slot next k mightExist home size = .vacant i) : Vacant slot next home i := by
  unfold place at result
  split at result
  · rename_i free
    cases result
    exact ⟨.inl free, 0, rfl, fun m below => absurd below (Nat.not_lt_zero m)⟩
  · rename_i taken
    split at result
    · cases result
    · have path : Passable slot next home 1 := Passable.succ (fun m below => absurd below (Nat.not_lt_zero m)) taken
      exact @vacate_vacant _ _ _ _ _ _ _ _ 0 _ none path (by simp) result

theorem vacate_stored {k : κ} {fuel n m i : Nat} {firstRemoved : Option Nat} (here : next^[n] home = i)
    (held : slot i = .held k) (path : Passable slot next home n) (alone : ∀ l < n, slot (next^[l] home) ≠ .held k)
    (away : ∀ l, 0 < l → l ≤ n → next^[l] home ≠ home) (before : m < n) (enough : n - m ≤ fuel) :
    vacate slot next k true home fuel (next^[m] home) firstRemoved = .stored i := by
  induction fuel generalizing m firstRemoved with
  | zero => omega
  | succ fuel ih =>
    rw [vacate, if_neg (fun both => nomatch both.2.2)]
    dsimp only
    rw [← Function.iterate_succ_apply' next m home]
    rcases Nat.lt_or_ge (m + 1) n with more | last
    · rw [if_neg (path _ more), if_neg (fun both => alone _ more both.2), if_neg (away _ (Nat.succ_pos m) before)]
      exact ih more (by omega)
    · obtain rfl : n = m + 1 := by omega
      have taken : slot i ≠ .free := by
        rw [held]
        exact fun same => nomatch same
      rw [here, if_neg taken, if_pos ⟨rfl, held⟩]

theorem place_stored {k : κ} {size i : Nat} (start : home < size) (stays : ∀ j < size, next j < size)
    (held : slot i = .held k) (single : ∀ j, slot j = .held k → j = i) (reached : Reached slot next home i) :
    place slot next k true home size = .stored i := by
  obtain ⟨n, short, here, path, alone, away⟩ := reached.path start stays single
  unfold place
  rcases Nat.eq_zero_or_pos n with rfl | positive
  · have at_home : home = i := here
    subst at_home
    rw [if_neg (by rw [held]; exact fun same => nomatch same), if_pos ⟨rfl, held⟩]
  · have taken : slot home ≠ .free := path 0 positive
    have other : slot home ≠ .held k := alone 0 positive
    rw [if_neg taken, if_neg (fun both => other both.2)]
    exact vacate_stored here held path alone away positive (Nat.le_of_lt short)

theorem vacate_sound {k : κ} {mightExist : Bool} {fuel i j : Nat} {firstRemoved : Option Nat}
    (result : vacate slot next k mightExist home fuel i firstRemoved = .stored j) : slot j = .held k := by
  induction fuel generalizing i firstRemoved with
  | zero => cases firstRemoved <;> cases result
  | succ fuel ih =>
    rw [vacate] at result
    split at result
    · cases result
    · dsimp only at result
      split at result
      · cases result
      · split at result
        · rename_i both
          cases result
          exact both.2
        · split at result
          · generalize (if slot i = .removed ∧ firstRemoved = none then some i else firstRemoved) = f at result
            cases f <;> cases result
          · exact ih result

theorem place_sound {k : κ} {mightExist : Bool} {size j : Nat}
    (result : place slot next k mightExist home size = .stored j) : slot j = .held k := by
  unfold place at result
  split at result
  · cases result
  · split at result
    · rename_i both
      cases result
      exact both.2
    · exact vacate_sound result

/-- A loop that ends without a place has met no slot that would do; the induction is on what is left of the
walk through the table. -/
theorem vacate_full {k : κ} {mightExist : Bool} {fuel m size : Nat} {firstRemoved : Option Nat}
    (away : ∀ l, 0 < l → l < size → next^[l] home ≠ home) (whole : m + fuel = size)
    (result : vacate slot next k mightExist home fuel (next^[m] home) firstRemoved = .full) :
    firstRemoved = none ∧ ∀ l, m ≤ l → l < size → slot (next^[l] home) ≠ .removed ∧
      (m < l → slot (next^[l] home) ≠ .free) := by
  have no_removed : ∀ f : Option Nat, Place.ofRemoved f = .full → f = none := by
    intro f full
    cases f with
    | none => rfl
    | some j => cases full
  induction fuel generalizing m firstRemoved with
  | zero => exact ⟨no_removed _ result, fun l low high => absurd high (by omega)⟩
  | succ fuel ih =>
    rw [vacate] at result
    split at result
    · cases result
    · dsimp only at result
      have here : (if slot (next^[m] home) = .removed ∧ firstRemoved = none then some (next^[m] home)
          else firstRemoved) = none → firstRemoved = none ∧ slot (next^[m] home) ≠ .removed := by
        intro forgotten
        split at forgotten
        · cases forgotten
        · rename_i first
          exact ⟨forgotten, fun removed => first ⟨removed, forgotten⟩⟩
      generalize (if slot (next^[m] home) = .removed ∧ firstRemoved = none then some (next^[m] home)
        else firstRemoved) = firstRemoved' at result here
      rw [← Function.iterate_succ_apply' next m home] at result
      split at result
      · cases result
      · rename_i taken
        split at result
        · cases result
        · split at result
          · rename_i back
            obtain ⟨first, kept⟩ := here (no_removed _ result)
            have last : size ≤ m + 1 := Nat.le_of_not_lt fun before => away (m + 1) (Nat.succ_pos m) before back
            refine ⟨first, fun l low high => ?_⟩
            obtain rfl : l = m := by omega
            exact ⟨kept, fun less => absurd less (Nat.lt_irrefl l)⟩
          · obtain ⟨forgotten, later⟩ := ih (by omega) result
            obtain ⟨first, kept⟩ := here forgotten
            refine ⟨first, fun l low high => ?_⟩
            rcases Nat.eq_or_lt_of_le low with rfl | more
            · exact ⟨kept, fun less => absurd less (Nat.lt_irrefl m)⟩
            · refine ⟨(later l more high).1, fun _ => ?_⟩
              rcases Nat.eq_or_lt_of_le (Nat.succ_le_of_lt more) with rfl | further
              · exact taken
              · exact (later l more high).2 further

theorem place_ne_full {k : κ} {mightExist : Bool} {size i : Nat}
    (away : ∀ l, 0 < l → l < size → next^[l] home ≠ home) (covers : ∃ n < size, next^[n] home = i)
    (unused : slot i = .free ∨ slot i = .removed) : place slot next k mightExist home size ≠ .full := by
  intro full
  unfold place at full
  split at full
  · cases full
  · rename_i taken
    split at full
    · cases full
    · obtain ⟨n, inside, here⟩ := covers
      obtain ⟨-, met⟩ := @vacate_full _ _ _ _ _ _ _ _ 0 size _ away (Nat.zero_add _) full
      obtain ⟨kept, later⟩ := met n (Nat.zero_le n) inside
      rw [here] at kept later
      rcases unused with free | removed
      · rcases Nat.eq_zero_or_pos n with rfl | positive
        · have at_home : home = i := here
          exact taken (at_home ▸ free)
        · exact later positive free
      · exact kept removed

end

/-! ### Tables -/

/-- Every key is in one slot, and a probe from its home gets there. Slots may hold what is no key. -/
structure Table (Key : κ → Prop) (slot : Nat → Slot κ) (next : κ → Nat → Nat) (home : κ → Nat) : Prop where
  single : ∀ k i j, Key k → slot i = .held k → slot j = .held k → i = j
  reached : ∀ k i, Key k → slot i = .held k → Reached slot (next k) (home k) i

section
variable {Key : κ → Prop} {next : κ → Nat → Nat} {home : κ → Nat}

theorem Table.find_iff [DecidableEq κ] (table : Table Key slot next home) {size : Nat} (start : ∀ k, home k < size)
    (stays : ∀ k, ∀ j < size, next k j < size) {k : κ} (key : Key k) (i : Nat) :
    find slot (next k) k (home k) size = some i ↔ slot i = .held k := by
  constructor
  · exact find_sound
  · intro held
    exact find_complete (start k) (stays k) held (fun j other => table.single k j i key other held)
      (table.reached k i key held)

theorem Table.place_iff [DecidableEq κ] (table : Table Key slot next home) {size : Nat} (start : ∀ k, home k < size)
    (stays : ∀ k, ∀ j < size, next k j < size) {k : κ} (key : Key k) (i : Nat) :
    place slot (next k) k true (home k) size = .stored i ↔ slot i = .held k := by
  constructor
  · exact place_sound
  · intro held
    exact place_stored (start k) (stays k) held (fun j other => table.single k j i key other held)
      (table.reached k i key held)

theorem Table.insert (table : Table Key slot next home) {slot' : Nat → Slot κ} {k : κ} {i : Nat}
    (vacant : Vacant slot (next k) (home k) i) (absent : ∀ j, slot j ≠ .held k) (here : slot' i = .held k)
    (others : ∀ j, j ≠ i → slot' j = slot j) : Table Key slot' next home := by
  have kept : ∀ j, slot' j = .free → slot j = .free := by
    intro j free
    by_cases same : j = i
    · rw [same, here] at free
      cases free
    · rwa [others j same] at free
  have held : ∀ k' j, slot' j = .held k' → (j = i ∧ k' = k) ∨ (j ≠ i ∧ slot j = .held k') := by
    intro k' j there
    by_cases same : j = i
    · rw [same, here] at there
      cases there
      exact .inl ⟨same, rfl⟩
    · rw [others j same] at there
      exact .inr ⟨same, there⟩
  constructor
  · intro k' j l key left right
    rcases held k' j left with ⟨rfl, rfl⟩ | ⟨-, old⟩
    · rcases held k' l right with ⟨rfl, -⟩ | ⟨-, older⟩
      · rfl
      · exact absurd older (absent l)
    · rcases held k' l right with ⟨rfl, rfl⟩ | ⟨-, older⟩
      · exact absurd old (absent j)
      · exact table.single k' j l key old older
  · intro k' j key there
    rcases held k' j there with ⟨rfl, rfl⟩ | ⟨-, old⟩
    · exact vacant.reached.of_le kept
    · exact (table.reached k' j key old).of_le kept

/-- A slot that lost its key, but is not free, is still on the paths through it. -/
theorem Table.lose (table : Table Key slot next home) {slot' : Nat → Slot κ} {i : Nat} (taken : slot' i ≠ .free)
    (lost : ∀ k, Key k → slot' i ≠ .held k) (others : ∀ j, j ≠ i → slot' j = slot j) :
    Table Key slot' next home := by
  have kept : ∀ j, slot' j = .free → slot j = .free := by
    intro j free
    by_cases same : j = i
    · exact absurd (same ▸ free) taken
    · rwa [others j same] at free
  have held : ∀ k j, Key k → slot' j = .held k → slot j = .held k := by
    intro k j key there
    by_cases same : j = i
    · exact absurd (same ▸ there) (lost k key)
    · rwa [others j same] at there
  constructor
  · exact fun k j l key left right => table.single k j l key (held k j key left) (held k l key right)
  · exact fun k j key there => (table.reached k j key (held k j key there)).of_le kept

end

end EncryptedDedup.OpenAddressing
