import Mathlib.Data.Fintype.Basic
import Mathlib.Data.Finset.Card
import EncryptedDedup.SDFS.FilterRecords

/-!
# The two counts of a chunk

Every filter counts the references of its user, and holds one reference to the chunk in the global store.
-/

namespace EncryptedDedup.SDFS.LocalLookupFilter

variable {ι : Type} [DecidableEq ι]

/-! ### Runs -/

inductive Call (ι : Type) where
  /-- `put(key, contents, ct, uuid)`, where the global store keeps a new chunk at `loc`. -/
  | put (f : ι) (key : Bytes) (loc ct : Int)
  | putAgain (f : ι) (key : Bytes) (ct : Int)
  | putAt (f : ι) (key : Bytes) (pos ct : Int)
  | claimKey (f : ι) (hash : Bytes) (val ct : Int)

namespace Call

def filter : Call ι → ι
  | put f _ _ _ | putAgain f _ _ | putAt f _ _ _ | claimKey f _ _ _ => f

def key : Call ι → Bytes
  | put _ key _ _ | putAgain _ key _ | putAt _ key _ _ | claimKey _ key _ _ => key

def run (s : Stores ι) : Call ι → Except Failure (Stores ι)
  | put f key loc ct => do return (← LocalLookupFilter.put s f key (toBE64 loc) ct).2
  | putAgain f key ct => do return (← LocalLookupFilter.putAgain s f key ct).2
  | putAt f key pos ct => LocalLookupFilter.putAt s f key pos ct
  | claimKey f hash val ct => do return (← LocalLookupFilter.claimKey s f hash val ct).2

/-- The references that the call puts, or releases if they are negative. A `put(key, ct)` of a key that
the filter does not have is refused. -/
def puts (s : Stores ι) : Call ι → Int
  | put _ _ _ ct | putAt _ _ _ ct => refs ct
  | putAgain f key ct => if s.Holds f key then refs ct else 0
  | claimKey _ _ _ ct => ct

/-- The locations match, and no more references are released than the filter holds. -/
def Proper (s : Stores ι) : Call ι → Prop
  | put .. | putAgain .. => True
  | putAt f key pos _ => ∀ loc ∈ s.location f key, loc = pos
  | claimKey f key val ct => (∀ loc ∈ s.location f key, loc = val) ∧ 0 ≤ s.count f key + ct

end Call

structure Event (ι : Type) where
  call : Call ι
  found : Stores ι

/-- What has been put for a key minus what has been released. -/
def balance (f : ι) (key : Bytes) (h : List (Event ι)) : Int :=
  (h.map fun e => if e.call.filter = f ∧ e.call.key = key then e.call.puts e.found else 0).sum

/-- The filter has the key since it stored the contents of the chunk. -/
def stored (f : ι) (key : Bytes) (h : List (Event ι)) : Bool :=
  h.foldl (fun now e =>
    match e.call with
    | .put g k _ _ => if g = f ∧ k = key ∧ ¬ e.found.Holds f key then true else now
    | .putAt g k _ _ => if g = f ∧ k = key ∧ ¬ e.found.Holds f key then false else now
    | _ => now) false

/-- `put(key, pos, ct)` is called for new keys only, a filter keeps the last reference to a key that came
so, only references to a key that the filter has are claimed, and the counts are `long`s. -/
def Call.Sound (s : Stores ι) (h : List (Event ι)) (c : Call ι) : Prop :=
  s.count c.filter c.key + c.puts s < 2 ^ 63 ∧
    match c with
    | .put .. | .putAgain .. => True
    | .putAt f key _ _ => ¬ s.Holds f key
    | .claimKey f key _ ct =>
      (¬ s.Holds f key → ct ≤ 0) ∧ (s.Holds f key → s.count f key + ct = 0 → stored f key h = true)

def Stores.fresh (ι : Type) (references : Bytes → Int) : Stores ι := ⟨fun _ => ⟨false, fun _ => none⟩, references⟩

inductive Run (references : Bytes → Int) : List (Event ι) → Stores ι → Prop where
  | start : Run references [] (Stores.fresh ι references)
  | call {h : List (Event ι)} {s t : Stores ι} {c : Call ι} : Run references h s → c.Proper s → c.Sound s h →
    c.run s = .ok t → Run references (h ++ [⟨c, s⟩]) t

/-! ### What a call does -/

/-- What a call does, with `n` references to its key in its filter. -/
inductive Effect (h : List (Event ι)) (s : Stores ι) (c : Call ι) (n : Int) : Stores ι → Prop where
  | idle : s.record c.filter c.key = none → c.puts s = 0 →
      (∀ f key, stored f key (h ++ [⟨c, s⟩]) = stored f key h) → Effect h s c n s
  | enter (loc ct : Int) : s.record c.filter c.key = none → c = .put c.filter c.key loc ct →
    Effect h s c n ((s.claim c.key 1).store c.filter c.key (some (recordOf loc (c.puts s))))
  | enterAt (loc ct : Int) : s.record c.filter c.key = none → c = .putAt c.filter c.key loc ct →
    Effect h s c n (s.store c.filter c.key (some (recordOf loc (c.puts s))))
  | add (loc : Int) : s.record c.filter c.key = some (recordOf loc n) → 0 < n + c.puts s →
    Effect h s c n (s.store c.filter c.key (some (recordOf loc (n + c.puts s))))
  | drop : s.Holds c.filter c.key → n + c.puts s = 0 → stored c.filter c.key h = true →
    Effect h s c n ((s.store c.filter c.key none).claim c.key (-1))

variable {s : Stores ι} {c : Call ι} {h : List (Event ι)}

theorem balance_append (f : ι) (key : Bytes) (h : List (Event ι)) (e : Event ι) :
    balance f key (h ++ [e]) =
      balance f key h + if e.call.filter = f ∧ e.call.key = key then e.call.puts e.found else 0 := by
  simp [balance]

theorem stored_append_of_holds (holds : s.Holds c.filter c.key) (f : ι) (key : Bytes) :
    stored f key (h ++ [⟨c, s⟩]) = stored f key h := by
  unfold stored
  rw [List.foldl_append, List.foldl_cons, List.foldl_nil]
  cases c with
  | put g k loc ct =>
    dsimp only
    rw [if_neg]
    rintro ⟨rfl, rfl, absent⟩
    exact absent holds
  | putAt g k loc ct =>
    dsimp only
    rw [if_neg]
    rintro ⟨rfl, rfl, absent⟩
    exact absent holds
  | putAgain g k ct => rfl
  | claimKey g k val ct => rfl

theorem stored_append_of_ne {f : ι} {key : Bytes} (other : ¬ (c.filter = f ∧ c.key = key)) :
    stored f key (h ++ [⟨c, s⟩]) = stored f key h := by
  unfold stored
  rw [List.foldl_append, List.foldl_cons, List.foldl_nil]
  cases c with
  | put g k loc ct =>
    dsimp only
    rw [if_neg fun both => other ⟨both.1, both.2.1⟩]
  | putAt g k loc ct =>
    dsimp only
    rw [if_neg fun both => other ⟨both.1, both.2.1⟩]
  | putAgain g k ct => rfl
  | claimKey g k val ct => rfl

/-- The record of a key with `n` references. -/
def Entry (v : Option Bytes) (n : Int) : Prop :=
  v = none ∧ n = 0 ∨ ∃ loc, v = some (recordOf loc n) ∧ 0 < n ∧ n < 2 ^ 63

omit [DecidableEq ι] in
theorem Entry.count {f : ι} {key : Bytes} {n : Int} (entry : Entry (s.record f key) n) : s.count f key = n := by
  rcases entry with ⟨absent, nothing⟩ | ⟨loc, present, positive, small⟩
  · rw [count_none absent, nothing]
  · rw [count_some present, long_eq (by omega) small]

omit [DecidableEq ι] in
theorem Entry.holds_iff {f : ι} {key : Bytes} {n : Int} (entry : Entry (s.record f key) n) : s.Holds f key ↔ 0 < n := by
  rcases entry with ⟨absent, nothing⟩ | ⟨loc, present, positive, -⟩
  · rw [Stores.Holds, absent, nothing]
    simp
  · rw [Stores.Holds, present]
    simp [positive]

structure Kept (h : List (Event ι)) (s : Stores ι) : Prop where
  opened : ∀ f, (s.filters f).closed = false
  records : ∀ f key, Entry (s.record f key) (balance f key h)

omit [DecidableEq ι] in
theorem result_state {α : Type} {p : Except Failure (α × Stores ι)} {a : α} {t : Stores ι} (given : p = .ok (a, t)) :
    (do return (← p).2 : Except Failure (Stores ι)) = .ok t := by
  rw [given]
  rfl

/-- A call that is proper and sound does not throw. -/
theorem run_effect (kept : Kept h s) (proper : c.Proper s) (sound : c.Sound s h) :
    ∃ t, c.run s = .ok t ∧ Effect h s c (balance c.filter c.key h) t := by
  obtain ⟨range, sound⟩ := sound
  have opened := kept.opened c.filter
  rcases kept.records c.filter c.key with ⟨absent, -⟩ | ⟨loc, present, positive, small⟩
  · have lost : ¬ s.Holds c.filter c.key := by
      rw [Stores.Holds, absent]
      exact Bool.false_ne_true
    cases c with
    | put f key loc ct => exact ⟨_, result_state (put_none opened absent), .enter loc ct absent rfl⟩
    | putAgain f key ct =>
      exact ⟨s, result_state (putAgain_none opened absent), .idle absent (if_neg lost) fun _ _ => by simp [stored]⟩
    | putAt f key pos ct => exact ⟨_, putAt_none opened absent, .enterAt pos ct absent rfl⟩
    | claimKey f key val ct =>
      have nothing : ct = 0 := by
        have counted : s.count f key = 0 := count_none absent
        have released := proper.2
        have claimed := sound.1 lost
        omega
      exact ⟨s, result_state (claimKey_none absent), .idle absent nothing fun _ _ => by simp [stored]⟩
  · generalize balance c.filter c.key h = n at present positive small
    have whole : long n = n := long_eq (by omega) small
    have held : s.Holds c.filter c.key := by
      rw [Stores.Holds, present]
      rfl
    rw [count_some present, whole] at range
    have sum (m : Int) (low : 0 ≤ m) (high : m < 2 ^ 63) : long m = m := long_eq (by omega) high
    cases c with
    | put f key loc' ct =>
      have more : 0 < n + refs ct := Int.add_pos positive (refs_pos ct)
      have ran : put s f key (toBE64 loc') ct = _ := put_some opened present (toBE64 loc')
      rw [whole, sum _ more.le range] at ran
      exact ⟨_, result_state ran, .add loc present more⟩
    | putAgain f key ct =>
      have puts : (Call.putAgain f key ct).puts s = refs ct := if_pos held
      have more : 0 < n + refs ct := Int.add_pos positive (refs_pos ct)
      have ran : putAgain s f key ct = _ := putAgain_some opened present
      rw [puts] at range
      rw [whole, sum _ more.le range, ← puts] at ran
      exact ⟨_, result_state ran, .add loc present (puts ▸ more)⟩
    | putAt f key pos ct => exact absurd held sound
    | claimKey f key val ct =>
      obtain rfl : long loc = val := proper.1 _ (location_some present)
      have counted : s.count f key = n := (count_some present).trans whole
      have enough := proper.2
      rw [counted] at enough
      have total : long (ct + long n) = n + ct := by
        rw [whole, Int.add_comm, sum _ enough range]
      rcases enough.lt_or_eq with left | last
      · have ran := claimKey_keep present (total ▸ left)
        rw [total] at ran
        exact ⟨_, result_state ran, .add loc present left⟩
      · have ran := claimKey_drop present (total.trans last.symm)
        exact ⟨_, result_state ran, .drop held last.symm (sound.2 held (counted ▸ last.symm))⟩

namespace Effect

variable {n : Int} {t : Stores ι}

theorem closed (effect : Effect h s c n t) (f : ι) : (t.filters f).closed = (s.filters f).closed := by
  cases effect with
  | idle => rfl
  | enter => exact Stores.closed_store (s.claim c.key 1) c.filter f c.key _
  | enterAt => exact Stores.closed_store s c.filter f c.key _
  | add => exact Stores.closed_store s c.filter f c.key _
  | drop => exact Stores.closed_store s c.filter f c.key _

theorem elsewhere (effect : Effect h s c n t) {f : ι} {key : Bytes} (other : ¬ (f = c.filter ∧ key = c.key)) :
    t.record f key = s.record f key := by
  cases effect with
  | idle => rfl
  | enter => rw [Stores.record_store, if_neg other, Stores.record_claim]
  | enterAt => rw [Stores.record_store, if_neg other]
  | add => rw [Stores.record_store, if_neg other]
  | drop => rw [Stores.record_claim, Stores.record_store, if_neg other]

theorem entry (effect : Effect h s c n t) (before : Entry (s.record c.filter c.key) n)
    (range : n + c.puts s < 2 ^ 63) : Entry (t.record c.filter c.key) (n + c.puts s) := by
  have new (absent : s.record c.filter c.key = none) : n = 0 := by
    rcases before with ⟨-, nothing⟩ | ⟨loc, present, -⟩
    · exact nothing
    · rw [absent] at present
      cases present
  cases effect with
  | idle absent nothing =>
    rw [nothing, Int.add_zero]
    exact before
  | enter loc ct absent call =>
    have positive : 0 < c.puts s := by
      rw [call]
      exact refs_pos ct
    rw [new absent, Int.zero_add] at range ⊢
    rw [Stores.record_store, if_pos ⟨rfl, rfl⟩]
    exact .inr ⟨loc, rfl, positive, range⟩
  | enterAt loc ct absent call =>
    have positive : 0 < c.puts s := by
      rw [call]
      exact refs_pos ct
    rw [new absent, Int.zero_add] at range ⊢
    rw [Stores.record_store, if_pos ⟨rfl, rfl⟩]
    exact .inr ⟨loc, rfl, positive, range⟩
  | add loc present positive =>
    rw [Stores.record_store, if_pos ⟨rfl, rfl⟩]
    exact .inr ⟨loc, rfl, positive, range⟩
  | drop held last =>
    rw [Stores.record_claim, Stores.record_store, if_pos ⟨rfl, rfl⟩]
    exact .inl ⟨rfl, last⟩

end Effect

theorem Kept.next (kept : Kept h s) (sound : c.Sound s h) {t : Stores ι}
    (effect : Effect h s c (balance c.filter c.key h) t) : Kept (h ++ [⟨c, s⟩]) t where
  opened f := (effect.closed f).trans (kept.opened f)
  records f key := by
    rw [balance_append]
    by_cases same : c.filter = f ∧ c.key = key
    · obtain ⟨rfl, rfl⟩ := same
      rw [if_pos ⟨rfl, rfl⟩]
      have before := kept.records c.filter c.key
      refine effect.entry before ?_
      have counted : s.count c.filter c.key = balance c.filter c.key h := before.count
      rw [← counted]
      exact sound.1
    · rw [if_neg same, Int.add_zero, effect.elsewhere fun both => same ⟨both.1.symm, both.2.symm⟩]
      exact kept.records f key

/-! ### The references in the global store -/

theorem stored_append_put {loc ct : Int} (call : c = .put c.filter c.key loc ct) (absent : s.record c.filter c.key = none) :
    stored c.filter c.key (h ++ [⟨c, s⟩]) = true := by
  have lost : ¬ s.Holds c.filter c.key := by
    rw [Stores.Holds, absent]
    exact Bool.false_ne_true
  rw [stored, List.foldl_append, List.foldl_cons, List.foldl_nil]
  dsimp only
  rw [call]
  exact if_pos ⟨rfl, rfl, lost⟩

theorem stored_append_putAt {loc ct : Int} (call : c = .putAt c.filter c.key loc ct)
    (absent : s.record c.filter c.key = none) : stored c.filter c.key (h ++ [⟨c, s⟩]) = false := by
  have lost : ¬ s.Holds c.filter c.key := by
    rw [Stores.Holds, absent]
    exact Bool.false_ne_true
  rw [stored, List.foldl_append, List.foldl_cons, List.foldl_nil]
  dsimp only
  rw [call]
  exact if_pos ⟨rfl, rfl, lost⟩

variable [Fintype ι]

/-- The filters that have the key since they stored the contents of the chunk. -/
def holders (s : Stores ι) (h : List (Event ι)) (key : Bytes) : Finset ι :=
  Finset.univ.filter fun f => s.Holds f key ∧ stored f key h = true

theorem mem_holders {key : Bytes} {f : ι} : f ∈ holders s h key ↔ s.Holds f key ∧ stored f key h = true := by
  simp [holders]

theorem mem_holders_of_ne {n : Int} {t : Stores ι} (effect : Effect h s c n t) {f : ι} {key : Bytes}
    (other : ¬ (f = c.filter ∧ key = c.key)) : f ∈ holders t (h ++ [⟨c, s⟩]) key ↔ f ∈ holders s h key := by
  rw [mem_holders, mem_holders, Stores.Holds, Stores.Holds, effect.elsewhere other,
    stored_append_of_ne fun both => other ⟨both.1.symm, both.2.symm⟩]

theorem card_holders_same {n : Int} {t : Stores ι} (effect : Effect h s c n t)
    (same : c.filter ∈ holders t (h ++ [⟨c, s⟩]) c.key ↔ c.filter ∈ holders s h c.key) (key : Bytes) :
    (holders t (h ++ [⟨c, s⟩]) key).card = (holders s h key).card := by
  congr 1
  ext f
  by_cases here : f = c.filter ∧ key = c.key
  · rw [here.1, here.2]
    exact same
  · exact mem_holders_of_ne effect here

theorem card_holders_insert {n : Int} {t : Stores ι} (effect : Effect h s c n t) (out : c.filter ∉ holders s h c.key)
    (inside : c.filter ∈ holders t (h ++ [⟨c, s⟩]) c.key) (key : Bytes) :
    (holders t (h ++ [⟨c, s⟩]) key).card = (holders s h key).card + if key = c.key then 1 else 0 := by
  split
  · rename_i same
    subst same
    have inserted : holders t (h ++ [⟨c, s⟩]) c.key = insert c.filter (holders s h c.key) := by
      ext f
      rw [Finset.mem_insert]
      by_cases here : f = c.filter
      · subst here
        exact iff_of_true inside (.inl rfl)
      · rw [mem_holders_of_ne effect fun both => here both.1]
        exact ⟨.inr, fun either => either.resolve_left here⟩
    rw [inserted, Finset.card_insert_of_notMem out]
  · rename_i other
    congr 1
    ext f
    exact mem_holders_of_ne effect fun both => other both.2

theorem card_holders_erase {n : Int} {t : Stores ι} (effect : Effect h s c n t) (inside : c.filter ∈ holders s h c.key)
    (out : c.filter ∉ holders t (h ++ [⟨c, s⟩]) c.key) (key : Bytes) :
    (holders s h key).card = (holders t (h ++ [⟨c, s⟩]) key).card + if key = c.key then 1 else 0 := by
  split
  · rename_i same
    subst same
    have inserted : holders s h c.key = insert c.filter (holders t (h ++ [⟨c, s⟩]) c.key) := by
      ext f
      rw [Finset.mem_insert]
      by_cases here : f = c.filter
      · subst here
        exact iff_of_true inside (.inl rfl)
      · rw [mem_holders_of_ne effect fun both => here both.1]
        exact ⟨.inr, fun either => either.resolve_left here⟩
    rw [inserted, Finset.card_insert_of_notMem out]
  · rename_i other
    congr 1
    ext f
    exact (mem_holders_of_ne effect fun both => other both.2).symm

theorem references_next {n : Int} {t : Stores ι} {references : Bytes → Int}
    (total : ∀ key, s.references key = references key + (holders s h key).card) (effect : Effect h s c n t) (key : Bytes) :
    t.references key = references key + (holders t (h ++ [⟨c, s⟩]) key).card := by
  have out (absent : s.record c.filter c.key = none) : c.filter ∉ holders s h c.key := by
    rw [mem_holders, Stores.Holds, absent]
    exact fun both => Bool.false_ne_true both.1
  cases effect with
  | idle absent nothing kept =>
    have same : c.filter ∈ holders s (h ++ [⟨c, s⟩]) c.key ↔ c.filter ∈ holders s h c.key := by
      rw [mem_holders, mem_holders, kept]
    rw [card_holders_same (n := n) (.idle absent nothing kept) same]
    exact total key
  | enter loc ct absent call =>
    have inside : c.filter ∈ holders ((s.claim c.key 1).store c.filter c.key (some (recordOf loc (c.puts s))))
        (h ++ [⟨c, s⟩]) c.key := by
      rw [mem_holders, Stores.Holds, Stores.record_store, if_pos ⟨rfl, rfl⟩]
      exact ⟨rfl, stored_append_put call absent⟩
    rw [card_holders_insert (n := n) (.enter loc ct absent call) (out absent) inside, Stores.references_store,
      Stores.references_claim, total]
    split <;> push_cast <;> omega
  | enterAt loc ct absent call =>
    have same : c.filter ∈ holders (s.store c.filter c.key (some (recordOf loc (c.puts s)))) (h ++ [⟨c, s⟩]) c.key ↔
        c.filter ∈ holders s h c.key := by
      refine iff_of_false ?_ (out absent)
      rw [mem_holders, stored_append_putAt call absent]
      exact fun both => Bool.false_ne_true both.2
    rw [card_holders_same (n := n) (.enterAt loc ct absent call) same, Stores.references_store]
    exact total key
  | add loc present positive =>
    have held : s.Holds c.filter c.key := by
      rw [Stores.Holds, present]
      rfl
    have same : c.filter ∈ holders (s.store c.filter c.key (some (recordOf loc (n + c.puts s)))) (h ++ [⟨c, s⟩]) c.key ↔
        c.filter ∈ holders s h c.key := by
      rw [mem_holders, mem_holders, stored_append_of_holds held, Stores.Holds, Stores.record_store, if_pos ⟨rfl, rfl⟩]
      exact and_congr_left fun _ => iff_of_true rfl held
    rw [card_holders_same (.add loc present positive) same, Stores.references_store]
    exact total key
  | drop held last kept =>
    have gone : c.filter ∉ holders ((s.store c.filter c.key none).claim c.key (-1)) (h ++ [⟨c, s⟩]) c.key := by
      rw [mem_holders, Stores.Holds, Stores.record_claim, Stores.record_store, if_pos ⟨rfl, rfl⟩]
      exact fun both => Bool.false_ne_true both.1
    have fewer := card_holders_erase (.drop held last kept) (mem_holders.mpr ⟨held, kept⟩) gone key
    rw [Stores.references_claim, Stores.references_store, total, fewer]
    split <;> push_cast <;> omega

/-! ### Runs -/

theorem Run.kept {references : Bytes → Int} (run : Run references h s) :
    Kept h s ∧ ∀ key, s.references key = references key + (holders s h key).card := by
  induction run with
  | start =>
    refine ⟨⟨fun _ => rfl, fun _ _ => .inl ⟨rfl, rfl⟩⟩, fun key => ?_⟩
    have nobody : holders (Stores.fresh ι references) [] key = ∅ := by
      apply Finset.eq_empty_of_forall_notMem
      intro f member
      exact Bool.false_ne_true (mem_holders.mp member).2
    rw [nobody]
    exact (Int.add_zero _).symm
  | call _ proper sound ran ih =>
    obtain ⟨t, same, effect⟩ := run_effect ih.1 proper sound
    obtain rfl := Except.ok.inj (same.symm.trans ran)
    exact ⟨ih.1.next sound effect, references_next ih.2 effect⟩

/-- After any sound calls on any number of filters, a call that is proper and sound does not throw; the
count of a key in a filter is what was put minus what was released, and the key is there while that is
positive; the global store has a reference for every filter that has the key since it stored it; and a
call with which a filter drops a key releases one of these. -/
theorem counts_of_run {references : Bytes → Int} {h : List (Event ι)} {s : Stores ι} (run : Run references h s) :
    (∀ c : Call ι, c.Proper s → c.Sound s h → ∃ t, c.run s = .ok t ∧
      (s.Holds c.filter c.key → ¬ t.Holds c.filter c.key → t.references c.key = s.references c.key - 1)) ∧
    (∀ f key, s.count f key = balance f key h ∧ (s.Holds f key ↔ 0 < balance f key h)) ∧
    ∀ key, s.references key = references key + (holders s h key).card := by
  obtain ⟨kept, total⟩ := run.kept
  refine ⟨fun c proper sound => ?_, fun f key => ⟨(kept.records f key).count, (kept.records f key).holds_iff⟩, total⟩
  obtain ⟨t, ran, effect⟩ := run_effect kept proper sound
  refine ⟨t, ran, fun held gone => ?_⟩
  cases effect with
  | idle absent => exact absurd held gone
  | enter loc ct absent call =>
    rw [Stores.Holds, absent] at held
    cases held
  | enterAt loc ct absent call =>
    rw [Stores.Holds, absent] at held
    cases held
  | add loc present positive =>
    refine absurd ?_ gone
    rw [Stores.Holds, Stores.record_store, if_pos ⟨rfl, rfl⟩]
    rfl
  | drop =>
    rw [Stores.references_claim, if_pos rfl, Stores.references_store]
    rfl

structure Played (ι : Type) where
  events : List (Event ι)
  now : Stores ι

/-- One more call, unless it throws. -/
def Played.play (p : Played ι) (c : Call ι) : Played ι :=
  match c.run p.now with
  | .ok t => ⟨p.events ++ [⟨c, p.now⟩], t⟩
  | .error _ => p

omit [Fintype ι] in
theorem Played.run_play {p : Played ι} {references : Bytes → Int} (run : Run references p.events p.now)
    (proper : c.Proper p.now) (sound : c.Sound p.now p.events) :
    Run references (p.play c).events (p.play c).now := by
  unfold play
  split
  · rename_i t ran
    exact .call run proper sound ran
  · exact run

def shared : Played (Fin 2) :=
  [.put 0 [1] 7 3, .put 1 [1] 7 1, .put 0 [1] 7 2, .claimKey 1 [1] 7 (-1), .claimKey 0 [1] 7 (-1)].foldl .play
    ⟨[], .fresh _ fun _ => 0⟩

theorem run_shared : Run (fun _ => 0) shared.events shared.now := by
  have fits (s : Stores (Fin 2)) (h : List (Event (Fin 2))) (f : Fin 2) (loc ct : Int)
      (range : s.count f [1] + refs ct < 2 ^ 63) : (Call.put f [1] loc ct).Sound s h := ⟨range, trivial⟩
  unfold shared
  simp only [List.foldl_cons, List.foldl_nil]
  apply Played.run_play
  · apply Played.run_play
    · apply Played.run_play
      · apply Played.run_play
        · apply Played.run_play
          · exact .start
          · trivial
          · exact fits _ _ _ _ _ (by decide +kernel)
        · trivial
        · exact fits _ _ _ _ _ (by decide +kernel)
      · trivial
      · exact fits _ _ _ _ _ (by decide +kernel)
    · unfold Call.Proper
      decide +kernel
    · unfold Call.Sound
      decide +kernel
  · unfold Call.Proper
    decide +kernel
  · unfold Call.Sound
    decide +kernel

theorem counts_of_run_shared :
    ((∀ c : Call (Fin 2), c.Proper shared.now → c.Sound shared.now shared.events → ∃ t, c.run shared.now = .ok t ∧
      (shared.now.Holds c.filter c.key → ¬ t.Holds c.filter c.key →
        t.references c.key = shared.now.references c.key - 1)) ∧
    (∀ f key, shared.now.count f key = balance f key shared.events ∧
      (shared.now.Holds f key ↔ 0 < balance f key shared.events)) ∧
    ∀ key, shared.now.references key = 0 + (holders shared.now shared.events key).card) ∧
    balance 0 [1] shared.events = 4 ∧ balance 1 [1] shared.events = 0 ∧ shared.now.references [1] = 1 := by
  refine ⟨counts_of_run run_shared, ?_, ?_, ?_⟩
  · decide +kernel
  · decide +kernel
  · decide +kernel

/-- `put(key, pos, ct)` fails on a key that was stored; and where it brings the key, the filter releases a
reference that it does not have. -/
theorem putAt_breaks :
    (∃ s : Stores (Fin 1), (Call.put 0 [1] 7 1).run (.fresh _ fun _ => 0) = .ok s ∧ (Call.putAt 0 [1] 7 1).Proper s ∧
      s.Holds 0 [1] ∧ (Call.putAt 0 [1] 7 1).run s = .error .bufferUnderflow) ∧
    ∃ s t : Stores (Fin 1), (Call.putAt 0 [1] 7 1).run (.fresh _ fun _ => 0) = .ok s ∧
      (Call.claimKey 0 [1] 7 (-1)).Proper s ∧ (Call.claimKey 0 [1] 7 (-1)).run s = .ok t ∧
      (∀ f, ¬ t.Holds f [1]) ∧ t.references [1] = -1 := by
  have entered (s : Stores (Fin 1)) : (s.store 0 [1] (some (recordOf 7 1))).record 0 [1] = some (recordOf 7 1) := by
    rw [Stores.record_store, if_pos ⟨rfl, rfl⟩]
  have located (s : Stores (Fin 1)) : ∀ loc ∈ (s.store 0 [1] (some (recordOf 7 1))).location 0 [1], loc = 7 := by
    intro loc member
    rw [location_some (entered s)] at member
    exact (Option.some.inj member).symm
  have gone (s : Stores (Fin 1)) (f : Fin 1) : ¬ ((s.store 0 [1] none).claim [1] (-1)).Holds f [1] := by
    rw [Stores.Holds, Stores.record_claim, Stores.record_store, if_pos ⟨Subsingleton.elim f 0, rfl⟩]
    exact Bool.false_ne_true
  have one : refs 1 = 1 := by decide
  have seven : long 7 = 7 := by decide +kernel
  have last : long (-1 + long 1) = 0 := by decide +kernel
  have fails (s : Stores (Fin 1)) (opened : (s.filters 0).closed = false) :
      putAt (s.store 0 [1] (some (recordOf 7 1))) 0 [1] (long 7) 1 = .error .bufferUnderflow :=
    putAt_some ((Stores.closed_store s 0 0 [1] _).trans opened) (entered s)
  have drops (s : Stores (Fin 1)) : claimKey (s.store 0 [1] (some (recordOf 7 1))) 0 [1] (long 7) (-1) =
      .ok (-1, ((s.store 0 [1] (some (recordOf 7 1))).store 0 [1] none).claim [1] (-1)) :=
    claimKey_drop (entered s) last
  rw [seven] at fails drops
  constructor
  · have stores : put (.fresh (Fin 1) fun _ => 0) 0 [1] (toBE64 7) 1 = _ := put_none rfl rfl
    rw [one] at stores
    refine ⟨_, result_state stores, located _, ?_, fails ((Stores.fresh (Fin 1) fun _ => 0).claim [1] 1) rfl⟩
    rw [Stores.Holds, entered]
    rfl
  · have stores : putAt (.fresh (Fin 1) fun _ => 0) 0 [1] 7 1 = _ := putAt_none rfl rfl
    rw [one] at stores
    refine ⟨_, _, stores, ⟨located _, ?_⟩, result_state (drops _), gone _, rfl⟩
    rw [count_some (entered _)]
    decide +kernel

end EncryptedDedup.SDFS.LocalLookupFilter
