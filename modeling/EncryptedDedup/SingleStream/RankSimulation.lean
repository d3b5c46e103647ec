import EncryptedDedup.SingleStream.LocalityRun
import EncryptedDedup.SingleStream.EntropyMatching
import EncryptedDedup.SingleStream.UniqMarks

/-!
# Pairing by rank in both attacks

With a single candidate per rank and no threshold, `peakToPair` pairs by rank, as the pairing loop
of `locality_attack` does. The two enqueue the same pairs until a ciphertext chunk is passed over
that was only used as a plaintext half; from then on they are apart.
-/

namespace EncryptedDedup.EntropyAttack
open Attack

/-- Only the candidate of the same rank is admitted, at any distance. -/
def rankTuning {D : Type} (A : Arith D) : Tuning D where
  r _ := 0
  radius := 1
  admissible _ := true
  maxInt := A.ofNat maxInt

/-- Whenever a chunk was passed over while `q_o` was below its limit, it was pushed before. -/
def RoomySkips (limit : Nat) (log : List Event) : Prop :=
  ∀ before c held after, log = before ++ .skipped c held :: after → held < limit →
    c.key ∈ pushedKeys before

def enqueued (log : List Event) : List (Fp × Fp) := (inferred log).map fun x => (x.1.key, x.2.key)

/-! ### States of the two attacks -/

/-- `s` of `entropy_attack` and `l` of `locality_attack` have enqueued the same pairs. -/
structure Related (limit : Nat) (s l : State) : Prop where
  qO : s.qO = l.qO
  qT : s.qT = l.qT
  same : inferred s.log = inferred l.log
  aligned : Aligned s.log ∧ Aligned l.log
  exactly : ∀ k, k ∈ l.uniq.keys ↔ k ∈ pushedKeys l.log
  marked : ∀ k ∈ pushedKeys s.log, k ∈ s.uniq.keys
  fair : RoomySkips limit s.log

/-- `l` has enqueued a ciphertext chunk that `s` has passed over and will never enqueue. -/
def Apart (limit : Nat) (s l : State) : Prop :=
  ∃ k, k ∈ s.uniq.keys ∧ k ∉ pushedKeys s.log ∧ ¬ RoomySkips limit s.log ∧ k ∈ pushedKeys l.log

variable {D : Type} {P : PriorityQueue Node cmp} {A : Arith D} {d : Databases} {args : Args}

theorem Related.pushed {limit : Nat} {s l : State} (related : Related limit s l) :
    pushedKeys s.log = pushedKeys l.log := by
  rw [pushedKeys, pushedKeys, related.aligned.1.2, related.aligned.2.2, related.same]

theorem roomySkips_concat {limit : Nat} {log : List Event} {e : Event} (fair : RoomySkips limit log)
    (last : ∀ c held, e = .skipped c held → held < limit → c.key ∈ pushedKeys log) :
    RoomySkips limit (log ++ [e]) := by
  intro before c held after same room
  rcases split_concat same with ⟨after', here, -⟩ | ⟨rfl, now⟩
  · exact fair before c held after' here room
  · exact last c held now room

theorem not_roomySkips_concat {limit : Nat} {log : List Event} (e : Event) (unfair : ¬ RoomySkips limit log) :
    ¬ RoomySkips limit (log ++ [e]) := by
  intro fair
  refine unfair fun before c held after same room => ?_
  exact fair before c held (after ++ [e]) (by rw [same, List.append_assoc, List.cons_append]) room

/-- Passing over a chunk is harmless if it was pushed before, or if nothing can be pushed. -/
theorem Related.skip {limit : Nat} {s l : State} {c : Node} (related : Related limit s l)
    (harmless : c.key ∈ pushedKeys s.log ∨ limit ≤ s.qO.length) : Related limit (s.skip c) l := by
  have log : (s.skip c).log = s.log ++ [.skipped c s.qO.length] := rfl
  have pushed : pushedKeys (s.skip c).log = pushedKeys s.log := (pushedKeys_concat _ _).trans (List.append_nil _)
  refine ⟨related.qO, related.qT, ?_, ⟨?_, related.aligned.2⟩, related.exactly, ?_, ?_⟩
  · exact ((inferred_concat _ _).trans (List.append_nil _)).trans related.same
  · exact related.aligned.1.concat ⟨rfl, rfl⟩
  · exact pushed ▸ related.marked
  · rw [log]
    refine roomySkips_concat related.fair fun c' held last room => ?_
    cases last
    exact harmless.resolve_right (Nat.not_le.mpr room)

theorem Related.push {limit : Nat} {s l : State} {p c : Node} {uniq uniq' : OrderedMap Fp Bytes}
    (related : Related limit s l) (kept : ∀ k ∈ s.uniq.keys, k ∈ uniq.keys) (mark : c.key ∈ uniq.keys)
    (mark' : ∀ k, k ∈ uniq'.keys ↔ k = c.key ∨ k ∈ l.uniq.keys) :
    Related limit (s.push p c uniq) (l.push p c uniq') := by
  have pushed : pushedKeys (s.push p c uniq).log = pushedKeys s.log ++ [c.key] := pushedKeys_concat _ _
  have pushed' : pushedKeys (l.push p c uniq').log = pushedKeys l.log ++ [c.key] := pushedKeys_concat _ _
  refine ⟨?_, ?_, ?_, ⟨?_, ?_⟩, fun k => ?_, fun k member => ?_, ?_⟩
  · simp only [State.push, related.qO]
  · simp only [State.push, related.qT]
  · simp only [State.push, inferred_concat, related.same, Event.pairs]
  · exact related.aligned.1.concat ⟨rfl, rfl⟩
  · exact related.aligned.2.concat ⟨rfl, rfl⟩
  · show k ∈ uniq'.keys ↔ _
    rw [mark', related.exactly, pushed', List.mem_append, List.mem_singleton, or_comm]
  · rw [pushed] at member
    rcases List.mem_append.mp member with old | now
    · exact kept k (related.marked k old)
    · exact List.mem_singleton.mp now ▸ mark
  · refine roomySkips_concat related.fair fun c' held last => ?_
    cases last

theorem Apart.moves {candidate : Node → Node → Prop} {s t l : State} (apart : Apart args.queueLimit s l)
    (moves : Moves (rules args) candidate s t) : Apart args.queueLimit t l := by
  obtain ⟨k, marked, unpushed, unfair, ahead⟩ := apart
  have kept := moves.keep (I := fun s => k ∈ s.uniq.keys ∧ k ∉ pushedKeys s.log ∧ ¬ RoomySkips args.queueLimit s.log)
    (fun u v ⟨marked, unpushed, unfair⟩ move => ?_) ⟨marked, unpushed, unfair⟩
  · exact ⟨k, kept.1, kept.2.1, kept.2.2, ahead⟩
  · cases move with
    | @push p c uniq _ fresh _ marks =>
      refine ⟨(marks k).mpr (Or.inl marked), ?_, not_roomySkips_concat _ unfair⟩
      show k ∉ pushedKeys (u.log ++ [.paired p c u.qO.length])
      rw [pushedKeys_concat]
      intro member
      rcases List.mem_append.mp member with old | now
      · exact unpushed old
      · exact fresh (List.mem_singleton.mp now ▸ marked)
    | @skip c _ =>
      have pushed : pushedKeys (u.skip c).log = pushedKeys u.log :=
        (pushedKeys_concat _ _).trans (List.append_nil _)
      exact ⟨marked, pushed ▸ unpushed, not_roomySkips_concat _ unfair⟩

theorem Apart.moves_right {R : Rules} {candidate : Node → Node → Prop} {limit : Nat} {s l m : State}
    (apart : Apart limit s l) (moves : Moves R candidate l m) : Apart limit s m := by
  obtain ⟨k, marked, unpushed, unfair, ahead⟩ := apart
  obtain ⟨new, -, -, -, logT, -⟩ := moves.grow
  refine ⟨k, marked, unpushed, unfair, ?_⟩
  rw [pushedKeys, logT, List.map_append]
  exact List.mem_append_left _ ahead

theorem Related.full {candidate : Node → Node → Prop} {s t l : State} (related : Related args.queueLimit s l)
    (full : args.queueLimit ≤ s.qO.length) (moves : Moves (rules args) candidate s t) :
    Related args.queueLimit t l := by
  have kept := moves.keep (I := fun s => Related args.queueLimit s l ∧ args.queueLimit ≤ s.qO.length)
    (fun u v ⟨related, full⟩ move => ?_) ⟨related, full⟩
  · exact kept.1
  · cases move with
    | push _ _ room => exact absurd room (Nat.not_lt.mpr full)
    | skip => exact ⟨related.skip (Or.inr full), full⟩

/-! ### One call of `peakToPair` -/

theorem window_rank {flag i : Nat} {o : Candidate D} {origins os : List (Candidate D)}
    (here : origins.drop i = o :: os) : window (rankTuning A) flag i origins = [(o, i)] := by
  have inside : i < origins.length := by
    by_contra beyond
    rw [List.drop_eq_nil_of_le (Nat.not_lt.mp beyond)] at here
    cases here
  have first : origins[i] = o := by
    rw [List.drop_eq_getElem_cons inside] at here
    exact (List.cons.inj here).1
  have bound : i < origins.zipIdx.length := by rwa [List.length_zipIdx]
  have one : min origins.length (i + 1) - (i - 0) = 1 := by omega
  show (origins.zipIdx.drop (i - 0)).take (min origins.length (i + 1) - (i - 0)) = _
  rw [one, Nat.sub_zero, List.drop_eq_getElem_cons bound, List.take_succ_cons, List.take_zero,
    List.getElem_zipIdx, first, Nat.zero_add]

variable [LinearOrder D]

theorem turns_rank {flag limit i : Nat} {t o : Candidate D} {targets os : List (Candidate D)} {m : Matching D}
    (here : m.origins.drop i = o :: os) (near : dist A t.left t.right o.left o.right < A.ofNat maxInt) :
    turns A (rankTuning A) limit flag i (t :: targets) m =
      if m.state.uniq.contains t.node.key then
        turns A (rankTuning A) limit flag (i + 1) targets { m with state := m.state.skip t.node }
      else if m.state.qO.length + 1 > limit then m
      else turns A (rankTuning A) limit flag (i + 1) targets (m.assign (rankTuning A) t o i) := by
  have chosen : (closest A (rankTuning A) t (window (rankTuning A) flag i m.origins)).2 = some (o, i) := by
    rw [window_rank here]
    simp [closest, nearer, rankTuning, near]
  rw [turns, chosen]

theorem apart_skip_push {s l : State} {limit : Nat} {t : Node} (o : Node) (marked : s.uniq.contains t.key = true)
    (unpushed : t.key ∉ pushedKeys s.log) (room : s.qO.length < limit) :
    Apart limit (s.skip t) (l.push o t (l.uniq.put t.key (countText t.count))) := by
  have skipped : pushedKeys (s.skip t).log = pushedKeys s.log := (pushedKeys_concat _ _).trans (List.append_nil _)
  refine ⟨t.key, OrderedMap.contains_iff.mp marked, skipped ▸ unpushed, fun fair => ?_, ?_⟩
  · exact unpushed (fair s.log t s.qO.length [] rfl room)
  · show t.key ∈ pushedKeys (l.log ++ [_])
    rw [pushedKeys_concat]
    exact List.mem_append_right _ (List.mem_singleton_self _)

theorem turns_pairUp {flag i : Nat} {targets os : List (Candidate D)} {m : Matching D} {l : State}
    (here : m.origins.drop i = os) (level : os.length = targets.length)
    (near : ∀ o ∈ os, ∀ t ∈ targets, dist A t.left t.right o.left o.right < A.ofNat maxInt)
    (related : Related args.queueLimit m.state l) :
    Related args.queueLimit (turns A (rankTuning A) args.queueLimit flag i targets m).state
        (LocalityAttack.pairUp args.queueLimit (os.map Candidate.node) (targets.map Candidate.node) l) ∨
      Apart args.queueLimit (turns A (rankTuning A) args.queueLimit flag i targets m).state
        (LocalityAttack.pairUp args.queueLimit (os.map Candidate.node) (targets.map Candidate.node) l) := by
  induction targets generalizing i os m l with
  | nil =>
    obtain rfl := List.eq_nil_of_length_eq_zero level
    exact Or.inl related
  | cons t targets ih =>
    obtain ⟨o, os, rfl⟩ : ∃ o os', os = o :: os' := by
      cases os with
      | nil => cases level
      | cons o os => exact ⟨o, os, rfl⟩
    have next : m.origins.drop (i + 1) = os := by rw [← List.drop_drop, here, List.drop_one, List.tail_cons]
    have level' : os.length = targets.length := by simpa using level
    have near' : ∀ o ∈ os, ∀ t ∈ targets, dist A t.left t.right o.left o.right < A.ofNat maxInt :=
      fun o inO t inT => near o (List.mem_cons_of_mem _ inO) t (List.mem_cons_of_mem _ inT)
    have anything : ∀ (i : Nat) (m : Matching D), Moves (rules args) (fun _ _ => True) m.state
        (turns A (rankTuning A) args.queueLimit flag i targets m).state :=
      fun i m => turns_moves flag i targets m fun _ _ _ _ => trivial
    rw [turns_rank here (near o List.mem_cons_self t List.mem_cons_self), List.map_cons, List.map_cons,
      LocalityAttack.pairUp, ← related.qO]
    have known : l.uniq.contains t.node.key = true ↔ t.node.key ∈ pushedKeys m.state.log := by
      rw [OrderedMap.contains_iff, related.exactly, related.pushed]
    by_cases marked : m.state.uniq.contains t.node.key = true
    · rw [if_pos marked]
      by_cases pushed : t.node.key ∈ pushedKeys m.state.log
      · rw [if_pos (known.mpr pushed)]
        exact ih (m := { m with state := m.state.skip t.node }) next level' near' (related.skip (Or.inl pushed))
      · rw [if_neg (fun known' => pushed (known.mp known'))]
        by_cases full : m.state.qO.length + 1 > args.queueLimit
        · rw [if_pos full]
          have still : args.queueLimit ≤ m.state.qO.length := by omega
          exact Or.inl ((related.skip (Or.inr still)).full still (anything (i + 1) { m with state := m.state.skip t.node }))
        · -- Here `locality_attack` enqueues a pair and `entropy_attack` does not.
          rw [if_neg full]
          have room : m.state.qO.length < args.queueLimit := by omega
          have apart := apart_skip_push (l := l) o.node marked pushed room
          have ahead : Moves (LocalityAttack.rules args) (fun _ _ => True) _ _ :=
            LocalityAttack.pairUp_moves (os.map Candidate.node) (targets.map Candidate.node)
              (l.push o.node t.node (l.uniq.put t.node.key (countText t.node.count))) fun _ _ _ _ => trivial
          exact Or.inr ((apart.moves (anything (i + 1) { m with state := m.state.skip t.node })).moves_right ahead)
    · rw [if_neg marked]
      have unpushed : ¬ l.uniq.contains t.node.key = true := by
        rw [known]
        exact fun pushed => marked (OrderedMap.contains_iff.mpr (related.marked _ pushed))
      rw [if_neg unpushed]
      by_cases full : m.state.qO.length + 1 > args.queueLimit
      · rw [if_pos full, if_pos full]
        exact Or.inl related
      · rw [if_neg full, if_neg full]
        refine ih (m := m.assign (rankTuning A) t o i) ?_ level' near' (related.push ?_ ?_ ?_)
        · show (m.origins.set i _).drop (i + 1) = os
          rw [List.drop_set_of_lt (Nat.lt_succ_self i), next]
        · intro k member
          rw [OrderedMap.mem_keys_put, OrderedMap.mem_keys_put]
          exact Or.inr (Or.inr member)
        · rw [OrderedMap.mem_keys_put, OrderedMap.mem_keys_put]
          exact Or.inr (Or.inl rfl)
        · intro k
          exact OrderedMap.mem_keys_put

/-! ### Both main loops -/

/-- All distances between chunks of the two sides are below the sentinel. -/
def NearDistances (P : PriorityQueue Node cmp) (A : Arith D) (d : Databases) : Prop :=
  ∀ n n' t o, measure A P d .t 5000 n = some t → measure A P d .o 5000 n' = some o →
    dist A t.left t.right o.left o.right < A.ofNat maxInt

theorem peakToPair_pairUp (args : Args) (flag : Nat) {omp tmp : List Node} {origins targets : List (Candidate D)} {s l : State}
    (near : NearDistances P A d) (measured : candidates P A d omp tmp = some (origins, targets))
    (level : omp.length = tmp.length)
    (related : Related args.queueLimit s l ∨ Apart args.queueLimit s l) :
    Related args.queueLimit (peakToPair A (rankTuning A) args.queueLimit flag origins targets s).state
        (LocalityAttack.pairUp args.queueLimit omp tmp l) ∨
      Apart args.queueLimit (peakToPair A (rankTuning A) args.queueLimit flag origins targets s).state
        (LocalityAttack.pairUp args.queueLimit omp tmp l) := by
  obtain ⟨nodesO, nodesT⟩ := candidates_nodes measured
  obtain ⟨measuredO, measuredT⟩ := candidates_measured measured
  rcases related with related | apart
  · rw [← nodesO, ← nodesT]
    refine turns_pairUp (m := ⟨s, origins, []⟩) rfl ?_ ?_ related
    · rw [← List.length_map (f := Candidate.node), nodesO, level, ← nodesT, List.length_map]
    · intro o inO t inT
      obtain ⟨n', hereO⟩ := measuredO o inO
      obtain ⟨n, hereT⟩ := measuredT t inT
      exact near n n' t o hereT hereO
  · have behind : Moves (rules args) (fun _ _ => True) s
        (peakToPair A (rankTuning A) args.queueLimit flag origins targets s).state :=
      turns_moves flag 0 targets ⟨s, origins, []⟩ fun _ _ _ _ => trivial
    have ahead : Moves (LocalityAttack.rules args) (fun _ _ => True) l
        (LocalityAttack.pairUp args.queueLimit omp tmp l) :=
      LocalityAttack.pairUp_moves omp tmp l fun _ _ _ _ => trivial
    exact Or.inr ((apart.moves behind).moves_right ahead)

theorem Related.examine {limit : Nat} {s l : State} (related : Related limit s l) (p c : Node) :
    Related limit (s.examine p c) (l.examine p c) := by
  unfold State.examine
  split
  · exact ⟨related.qO, related.qT, related.same, related.aligned, related.exactly, related.marked, related.fair⟩
  · exact related

theorem Related.take {limit : Nat} {s l : State} (related : Related limit s l) :
    Related limit s.take l.take :=
  ⟨congrArg List.tail related.qO, congrArg List.tail related.qT, related.same, related.aligned,
    related.exactly, related.marked, related.fair⟩

theorem iterate_related {s t : EntropyState} {l : State} (near : NearDistances P A d)
    (related : Related args.queueLimit s.toState l) (moved : iterate P A (rankTuning A) d args s = some t) :
    ∃ l', LocalityAttack.iterate P d args l = some l' ∧
      (Related args.queueLimit t.toState l' ∨ Apart args.queueLimit t.toState l') := by
  obtain ⟨p, c, origins, targets, origins', targets', headO, headT, left, right, same⟩ := iterate_parts moved
  rw [inspect_toState] at same
  unfold leftCandidates at left
  unfold rightCandidates at right
  obtain ⟨⟨ompL, tmpL⟩, builtL, measuredL⟩ := Option.bind_eq_some_iff.mp left
  obtain ⟨⟨ompR, tmpR⟩, builtR, measuredR⟩ := Option.bind_eq_some_iff.mp right
  rw [related.qO] at headO
  rw [related.qT] at headT
  have moved' : LocalityAttack.iterate P d args l = some (LocalityAttack.pairUp args.queueLimit ompR tmpR
      (LocalityAttack.pairUp args.queueLimit ompL tmpL (l.examine p c))).take := by
    simp only [LocalityAttack.iterate, headO, headT, builtL, builtR, Option.bind_eq_bind, Option.bind_some]
  refine ⟨_, moved', ?_⟩
  rw [same]
  have first := peakToPair_pairUp args 1 near measuredL (leftStacks_spec builtL).level
    (Or.inl (related.examine p c))
  rcases peakToPair_pairUp args 1 near measuredR (rightStacks_spec builtR).level first with together | apart
  · exact Or.inl together.take
  · exact Or.inr apart

end EncryptedDedup.EntropyAttack
