import EncryptedDedup.Bucket.Partition

/-!
# Runs of `inferTest`

Which chunks a run pairs up in every bucket, and what its counters say about the pairs.
-/

namespace EncryptedDedup.InferChunks
open ReadChunks

variable {P : PriorityQueue FC cmp} {md5 : Fp → Fp}

def hits (md5 : Fp → Fp) (pairs : List (FC × FC)) : List (FC × FC) :=
  pairs.filter fun p => md5 p.1.key = p.2.key

theorem hits_append (pairs more : List (FC × FC)) : hits md5 (pairs ++ more) = hits md5 pairs ++ hits md5 more :=
  List.filter_append ..

def outEntry (p : FC × FC) : Fp × Bytes := (p.1.key, p.2.key.bytes)

structure Ledger (md5 : Fp → Fp) (pairs : List (FC × FC)) (s : State P) : Prop where
  unique : s.uniqueInferChunkNumber = pairs.length
  correct : s.correctInferChunkNumber = (hits md5 pairs).length
  raw : s.rawInferChunkNumber = ((hits md5 pairs).map fun p => p.2.count).sum % 2 ^ 64
  out : s.outDb = OrderedMap.empty.putAll ((hits md5 pairs).map outEntry)

theorem Ledger.init : Ledger md5 [] (State.init P) := ⟨rfl, rfl, rfl, rfl⟩

theorem Ledger.infer {pairs : List (FC × FC)} {s : State P} (kept : Ledger md5 pairs s) (m c : FC) :
    Ledger md5 (pairs ++ [(m, c)]) (s.infer md5 m c) := by
  unfold State.infer
  by_cases hit : md5 m.key = c.key
  · have new : hits md5 (pairs ++ [(m, c)]) = hits md5 pairs ++ [(m, c)] := by
      rw [hits_append]
      simp [hits, hit]
    refine ⟨?_, ?_, ?_, ?_⟩
    · simp [hit, kept.unique]
    · simp [hit, kept.correct, new]
    · simp only [hit, if_true, new, List.map_append, List.sum_append, List.map_singleton, List.sum_singleton, kept.raw]
      exact Nat.mod_add_mod _ _ _
    · simp only [hit, if_true, new, List.map_append, List.map_singleton, kept.out, OrderedMap.putAll,
        List.foldl_append]
      rfl
  · have same : hits md5 (pairs ++ [(m, c)]) = hits md5 pairs := by
      rw [hits_append]
      simp [hits, hit]
    refine ⟨?_, ?_, ?_, ?_⟩
    · simp [hit, kept.unique]
    · simp [hit, kept.correct, same]
    · simp [hit, kept.raw, same]
    · simp [hit, kept.out, same]

theorem infer_frame (s : State P) (m c : FC) :
    (s.infer md5 m c).mQue = P.pop s.mQue ∧ (s.infer md5 m c).cQue = P.pop s.cQue ∧
    (s.infer md5 m c).buckets = s.buckets := by
  unfold State.infer
  dsimp only
  split <;> exact ⟨rfl, rfl, rfl⟩

theorem matchTop_zip (n : Nat) {pairs : List (FC × FC)} {s : State P} (kept : Ledger md5 pairs s)
    (enoughM : n ≤ P.size s.mQue) (enoughC : n ≤ P.size s.cQue) :
    ∃ s', matchTop md5 n s = some (s', (P.drainN n s.mQue).zip (P.drainN n s.cQue)) ∧
      Ledger md5 (pairs ++ (P.drainN n s.mQue).zip (P.drainN n s.cQue)) s' ∧ s'.buckets = s.buckets := by
  induction n generalizing pairs s with
  | zero => exact ⟨s, rfl, by simpa [PriorityQueue.drainN] using kept, rfl⟩
  | succ n ih =>
    obtain ⟨m, firstM⟩ := P.top_isSome (h := s.mQue) (by omega)
    obtain ⟨c, firstC⟩ := P.top_isSome (h := s.cQue) (by omega)
    have shorterM := P.size_pop firstM
    have shorterC := P.size_pop firstC
    obtain ⟨queM, queC, before⟩ : _ ∧ _ ∧ (s.infer md5 m c).buckets = _ := infer_frame s m c
    obtain ⟨s', rest, kept', same⟩ := ih (kept.infer m c) (by rw [queM]; omega) (by rw [queC]; omega)
    rw [queM, queC] at rest kept'
    refine ⟨s', ?_, ?_, ?_⟩
    · simp only [matchTop, PriorityQueue.drainN, firstM, firstC, rest, Option.bind_eq_bind, Option.bind_some,
        List.zip_cons_cons]
    · simpa [PriorityQueue.drainN, firstM, firstC] using kept'
    · rw [same, before]

/-! ### Buckets -/

structure Ranking (d : ReadChunks.State) (size : Bytes) (ranked : List FC) : Prop where
  members : (ranked.map fun f => f.key.bytes).Perm (cut fpSize ((d.sfDb.get size).getD []))
  counts : ∀ f ∈ ranked, d.fcDb.get f.key = some (decimal f.count)
  ordered : ranked.Pairwise fun f g => g.count ≤ f.count

def bucketSize (d : ReadChunks.State) (size : Bytes) : Nat := (cut fpSize ((d.sfDb.get size).getD [])).length

theorem Ranking.length {d : ReadChunks.State} {size : Bytes} {ranked : List FC} (ranking : Ranking d size ranked) :
    ranked.length = bucketSize d size := by
  rw [bucketSize, ← ranking.members.length_eq, List.length_map]

theorem cut_bucket {seen : List (Fp × Bytes)} {d : ReadChunks.State} (kept : Represents seen d) (size : Bytes) :
    cut fpSize ((d.sfDb.get size).getD []) = (group seen size).map Fp.bytes := by
  rw [kept.buckets size]
  split
  · rename_i absent
    rw [absent]
    rfl
  · exact cut_pack _

theorem Ranking.keys {seen : List (Fp × Bytes)} {d : ReadChunks.State} (kept : Represents seen d) {size : Bytes}
    {ranked : List FC} (ranking : Ranking d size ranked) : (ranked.map FC.key).Perm (group seen size) := by
  have injective : Function.Injective Fp.bytes := fun _ _ => Fp.ext
  rw [← List.map_perm_map_iff injective, ← cut_bucket kept, List.map_map]
  exact ranking.members

theorem drain_ranking {seen : List (Fp × Bytes)} {d : ReadChunks.State} (kept : Represents seen d) {size : Bytes}
    {que : P.Heap} (held : P.contents que = loaded seen size) : Ranking d size (P.drain que) := by
  have same : (P.drain que).Perm (loaded seen size) := Multiset.coe_eq_coe.mp ((P.drain_contents que).trans held)
  refine ⟨?_, ?_, ?_⟩
  · rw [cut_bucket kept]
    refine (same.map _).trans ?_
    rw [loaded, List.map_map]
    exact List.Perm.refl _
  · intro f member
    obtain ⟨x, inside, rfl⟩ := List.mem_map.mp (same.mem_iff.mp member)
    rw [kept.counts x, if_pos (mem_keys_of_mem_group inside)]
  · refine (P.drain_ordered que).imp fun first => ?_
    rw [cmp, decide_eq_false_iff_not] at first
    omega

theorem zip_drainN (mQue cQue : P.Heap) (T : Nat) :
    (P.drainN (min (min (P.size mQue) (P.size cQue)) T) mQue).zip
        (P.drainN (min (min (P.size mQue) (P.size cQue)) T) cQue) =
      ((P.drain mQue).zip (P.drain cQue)).take T := by
  have whole : ((P.drain mQue).zip (P.drain cQue)).take (min (P.size mQue) (P.size cQue)) =
      (P.drain mQue).zip (P.drain cQue) := by
    apply List.take_of_length_le
    rw [List.length_zip, P.length_drain, P.length_drain]
  rw [P.drainN_eq_take, P.drainN_eq_take, List.zip, ← List.take_zipWith, Nat.min_comm, ← List.take_take, ← List.zip,
    whole]

/-! ### Whole runs -/

section Runs

variable {c m : ReadChunks.State} {T : Nat}

/-- The pairs of a bucket join the chunks of one rank on either side, down to the threshold. -/
def Paired (c m : ReadChunks.State) (T : Nat) (b : Bytes × List (FC × FC)) : Prop :=
  ∃ ms cs, Ranking m b.1 ms ∧ Ranking c b.1 cs ∧ b.2 = (ms.zip cs).take T

def State.pairs (s : State P) : List (FC × FC) := s.buckets.flatMap Prod.snd

structure Progress (c m : ReadChunks.State) (md5 : Fp → Fp) (T : Nat) (visited : List Bytes) (s : State P) :
    Prop where
  ledger : Ledger md5 s.pairs s
  idle : P.contents s.cQue = 0 ∧ P.contents s.mQue = 0
  buckets : s.buckets.map Prod.fst = visited.filter m.sfDb.contains
  paired : ∀ b ∈ s.buckets, Paired c m T b

theorem progress_init : Progress c m md5 T [] (State.init P) :=
  ⟨Ledger.init, ⟨P.contents_empty, P.contents_empty⟩, rfl, fun _ member => nomatch member⟩

def Databases.of (c m : ReadChunks.State) : Databases := ⟨c.fcDb, c.sfDb, m.fcDb, m.sfDb⟩

variable {cseen mseen : List (Fp × Bytes)}

theorem inferBucket_progress (keptC : Represents cseen c) (keptM : Represents mseen m)
    (fewC : ∀ x, occurrences cseen x < 2 ^ 31) (fewM : ∀ x, occurrences mseen x < 2 ^ 31)
    {visited : List Bytes} {s : State P} (progress : Progress c m md5 T visited s) {e : Bytes × Bytes}
    (member : e ∈ c.sfDb.entries) :
    ∃ s', inferBucket (Databases.of c m) md5 T s e = some s' ∧ Progress c m md5 T (visited ++ [e.1]) s' := by
  obtain ⟨ledger, ⟨idleC, idleM⟩, buckets, paired⟩ := progress
  have found := (OrderedMap.get_eq_some c.sfDb e.1 e.2).mpr member
  unfold inferBucket
  cases other : m.sfDb.get e.1 with
  | none =>
    have missing : m.sfDb.contains e.1 = false := by rw [OrderedMap.contains, other]; rfl
    refine ⟨{ s with bucketNum := s.bucketNum + 1 }, by simp only [Databases.of, other], ?_⟩
    refine ⟨⟨ledger.unique, ledger.correct, ledger.raw, ledger.out⟩, ⟨idleC, idleM⟩, ?_, paired⟩
    rw [List.filter_append, List.filter_singleton, missing]
    simpa using buckets
  | some mTempFpSet =>
    have present : m.sfDb.contains e.1 = true := by rw [OrderedMap.contains, other]; rfl
    obtain ⟨cQue, loadC, heldC⟩ := keptC.load fewC P found s.cQue
    obtain ⟨mQue, loadM, heldM⟩ := keptM.load fewM P other s.mQue
    rw [idleC, Multiset.add_zero] at heldC
    rw [idleM, Multiset.add_zero] at heldM
    have smaller : (if P.size mQue ≤ P.size cQue then P.size mQue else P.size cQue) =
        min (P.size mQue) (P.size cQue) := Nat.min_def.symm
    have start : Ledger md5 s.pairs { s with bucketNum := s.bucketNum + 1, cQue := cQue, mQue := mQue } :=
      ⟨ledger.unique, ledger.correct, ledger.raw, ledger.out⟩
    obtain ⟨s', matched, ledger', same⟩ := matchTop_zip (min (min (P.size mQue) (P.size cQue)) T) start
      (by dsimp only; omega) (by dsimp only; omega)
    dsimp only at matched ledger' same
    rw [zip_drainN] at matched ledger'
    generalize joined : ((P.drain mQue).zip (P.drain cQue)).take T = pairs at matched ledger'
    refine ⟨{ s' with
      mQue := P.clear s'.mQue
      cQue := P.clear s'.cQue
      buckets := s'.buckets ++ [(e.1, pairs)] }, ?_, ?_⟩
    · simp only [Databases.of, other, loadC, loadM, smaller, matched, Option.bind_eq_bind, Option.bind_some]
    · refine ⟨?_, ⟨P.contents_clear _, P.contents_clear _⟩, ?_, ?_⟩
      · have all : State.pairs { s' with
            mQue := P.clear s'.mQue
            cQue := P.clear s'.cQue
            buckets := s'.buckets ++ [(e.1, pairs)] } = s.pairs ++ pairs := by
          simp [State.pairs, same]
        rw [all]
        exact ⟨ledger'.unique, ledger'.correct, ledger'.raw, ledger'.out⟩
      · rw [List.filter_append, List.filter_singleton, present, ← buckets, ← same, List.map_append]
        rfl
      · intro b inside
        rcases List.mem_append.mp inside with before | last
        · exact paired b (same ▸ before)
        · rw [List.mem_singleton.mp last]
          exact ⟨P.drain mQue, P.drain cQue, drain_ranking keptM heldM, drain_ranking keptC heldC, joined.symm⟩

theorem inferTest_progress (keptC : Represents cseen c) (keptM : Represents mseen m)
    (fewC : ∀ x, occurrences cseen x < 2 ^ 31) (fewM : ∀ x, occurrences mseen x < 2 ^ 31) :
    ∃ r, inferTest P (Databases.of c m) md5 T = some r ∧ Progress c m md5 T c.sfDb.keys r := by
  have folded : ∀ (es : List (Bytes × Bytes)) (visited : List Bytes) (s : State P),
      (∀ e ∈ es, e ∈ c.sfDb.entries) → Progress c m md5 T visited s →
      ∃ r, es.foldlM (inferBucket (Databases.of c m) md5 T) s = some r ∧
        Progress c m md5 T (visited ++ es.map Prod.fst) r := by
    intro es
    induction es with
    | nil => exact fun visited s _ progress => ⟨s, rfl, by simpa using progress⟩
    | cons e es ih =>
      intro visited s inside progress
      obtain ⟨s₁, first, progress₁⟩ := inferBucket_progress keptC keptM fewC fewM progress (inside e List.mem_cons_self)
      obtain ⟨r, rest, progress'⟩ := ih _ s₁ (fun e member => inside e (List.mem_cons_of_mem _ member)) progress₁
      refine ⟨r, ?_, ?_⟩
      · rw [List.foldlM_cons, first]
        exact rest
      · rw [List.map_cons, List.append_cons]
        exact progress'
  exact folded c.sfDb.entries [] (State.init P) (fun _ member => member) progress_init

theorem keys_nodup {seen : List (Fp × Bytes)} {d : ReadChunks.State} (kept : Represents seen d)
    {side : FC × FC → FC} {buckets : List (Bytes × List (FC × FC))} (apart : (buckets.map Prod.fst).Nodup)
    (ranked : ∀ b ∈ buckets, ∃ fcs, Ranking d b.1 fcs ∧ (b.2.map side).Sublist fcs) :
    ((buckets.flatMap Prod.snd).map fun p => (side p).key).Nodup := by
  have inside : ∀ b ∈ buckets, ∃ fcs : List FC, (fcs.map FC.key).Perm (group seen b.1) ∧
      (b.2.map fun p => (side p).key).Sublist (fcs.map FC.key) := by
    intro b member
    obtain ⟨fcs, ranking, part⟩ := ranked b member
    refine ⟨fcs, ranking.keys kept, ?_⟩
    have keys := part.map FC.key
    rwa [List.map_map] at keys
  rw [List.map_flatMap, List.nodup_flatMap]
  constructor
  · intro b member
    obtain ⟨fcs, same, part⟩ := inside b member
    exact (same.nodup_iff.mpr (group_nodup seen b.1)).sublist part
  · refine (List.pairwise_map.mp apart).imp_of_mem fun {b b'} member member' different => ?_
    obtain ⟨fcs, same, part⟩ := inside b member
    obtain ⟨fcs', same', part'⟩ := inside b' member'
    intro x inB inB'
    exact group_disjoint seen different (same.mem_iff.mp (part.subset inB)) (same'.mem_iff.mp (part'.subset inB'))

theorem map_zip_sublist {α β : Type} (xs : List α) (ys : List β) :
    ((xs.zip ys).map Prod.fst).Sublist xs ∧ ((xs.zip ys).map Prod.snd).Sublist ys := by
  induction xs generalizing ys with
  | nil => exact ⟨List.Sublist.refl _, List.nil_sublist ys⟩
  | cons x xs ih =>
    cases ys with
    | nil => exact ⟨List.nil_sublist _, List.Sublist.refl _⟩
    | cons y ys => exact ⟨(ih ys).1.cons_cons x, (ih ys).2.cons_cons y⟩

theorem Paired.sublists {b : Bytes × List (FC × FC)} (paired : Paired c m T b) :
    (∃ ms, Ranking m b.1 ms ∧ (b.2.map Prod.fst).Sublist ms) ∧
    ∃ cs, Ranking c b.1 cs ∧ (b.2.map Prod.snd).Sublist cs := by
  obtain ⟨ms, cs, rankM, rankC, joined⟩ := paired
  obtain ⟨left, right⟩ := map_zip_sublist ms cs
  rw [joined, List.map_take, List.map_take]
  exact ⟨⟨ms, rankM, (List.take_sublist _ _).trans left⟩, cs, rankC, (List.take_sublist _ _).trans right⟩

structure Inferred (c m : ReadChunks.State) (md5 : Fp → Fp) (T : Nat) (r : State P) : Prop where
  buckets : r.buckets.map Prod.fst = c.sfDb.keys.filter m.sfDb.contains
  paired : ∀ b ∈ r.buckets, Paired c m T b
  sizes : ∀ b ∈ r.buckets, b.2.length = min (min (bucketSize c b.1) (bucketSize m b.1)) T
  ciphers : (r.pairs.map fun p => p.2.key).Nodup
  plains : (r.pairs.map fun p => p.1.key).Nodup
  unique : r.uniqueInferChunkNumber = r.pairs.length
  correct : r.correctInferChunkNumber = r.outDb.entries.length
  raw : r.rawInferChunkNumber = ((hits md5 r.pairs).map fun p => p.2.count).sum % 2 ^ 64

theorem Progress.inferred (keptC : Represents cseen c) (keptM : Represents mseen m) {r : State P}
    (progress : Progress c m md5 T c.sfDb.keys r) : Inferred c m md5 T r := by
  obtain ⟨ledger, -, buckets, paired⟩ := progress
  have apart : (r.buckets.map Prod.fst).Nodup := by
    rw [buckets]
    exact c.sfDb.keys_nodup.filter _
  have plains : (r.pairs.map fun p => p.1.key).Nodup :=
    keys_nodup keptM apart fun b member => (paired b member).sublists.1
  have ciphers : (r.pairs.map fun p => p.2.key).Nodup :=
    keys_nodup keptC apart fun b member => (paired b member).sublists.2
  refine ⟨buckets, paired, ?_, ciphers, plains, ledger.unique, ?_, ledger.raw⟩
  · intro b member
    obtain ⟨ms, cs, rankM, rankC, joined⟩ := paired b member
    rw [joined, List.length_take, List.length_zip, rankM.length, rankC.length, Nat.min_comm,
      Nat.min_comm (bucketSize m b.1)]
  · have distinct : (((hits md5 r.pairs).map outEntry).map Prod.fst).Nodup := by
      rw [List.map_map]
      exact plains.sublist (List.filter_sublist.map _)
    rw [ledger.correct, ledger.out, OrderedMap.length_putAll distinct (fun _ _ => List.not_mem_nil), List.length_map]
    exact (Nat.zero_add _).symm

end Runs

/-- On databases counted from traces with fewer than 2^31 occurrences of any chunk. -/
theorem inferTest_inferred (P : PriorityQueue FC cmp) (md5 : Fp → Fp) (T : Nat) {cfps mfps : List Bytes}
    {c m : ReadChunks.State} (fedC : feed cfps = .ok c) (fedM : feed mfps = .ok m)
    (fewC : ∀ x, occurrences (seenBy cfps) x < 2 ^ 31) (fewM : ∀ x, occurrences (seenBy mfps) x < 2 ^ 31) :
    ∃ r, inferTest P (Databases.of c m) md5 T = some r ∧ Inferred c m md5 T r := by
  have keptC := feed_represents fedC fun x => (fewC x).le
  have keptM := feed_represents fedM fun x => (fewM x).le
  obtain ⟨r, finished, progress⟩ := inferTest_progress keptC keptM fewC fewM
  exact ⟨r, finished, progress.inferred keptC keptM⟩

def listHeap : PriorityQueue FC cmp :=
  listQueue cmp (by simp [cmp]) (by simp only [cmp, decide_eq_true_eq]; omega)

def digest (x : Fp) : Fp :=
  if x = Fp.ofBytes [1] then Fp.ofBytes [62, 181, 91, 195, 178, 119]
  else if x = Fp.ofBytes [2] then Fp.ofBytes [211, 155, 40, 13, 57, 88]
  else x

def plainTrace : Bytes := traceFile [("1:0:0:0:0:0", "8"), ("2:0:0:0:0:0", "8"), ("1:0:0:0:0:0", "8")]

def cipherTrace : Bytes :=
  traceFile [("3e:b5:5b:c3:b2:77", "8"), ("d3:9b:28:d:39:58", "8"), ("3e:b5:5b:c3:b2:77", "8")]

theorem inferTest_inferred_traces : ∃ c m, feed [cipherTrace] = .ok c ∧ feed [plainTrace] = .ok m ∧
    ∃ r, inferTest listHeap (Databases.of c m) digest 2 = some r ∧ Inferred c m digest 2 r := by
  have few : ∀ fp, (seenBy [fp]).length < 2 ^ 31 → ∀ x, occurrences (seenBy [fp]) x < 2 ^ 31 := by
    intro fp short x
    refine lt_of_le_of_lt List.count_le_length ?_
    rwa [List.length_map]
  have fewC := few cipherTrace (by decide +kernel)
  have fewM := few plainTrace (by decide +kernel)
  obtain ⟨c, fedC⟩ := feed_isOk (fun x => (fewC x).le) (by decide +kernel)
  obtain ⟨m, fedM⟩ := feed_isOk (fun x => (fewM x).le) (by decide +kernel)
  exact ⟨c, m, fedC, fedM, inferTest_inferred listHeap digest 2 fedC fedM fewC fewM⟩

/-! ### Counts beyond 2^31 -/

def repeatedTrace (n : Nat) : Bytes := traceFile (List.replicate n ("3:0:0:0:0:0", "8"))

theorem chunkLines_repeatedTrace (n : Nat) :
    chunkLines (repeatedTrace n) = List.replicate n (chunkLine ("3:0:0:0:0:0", "8") ++ [10]) := by
  rw [repeatedTrace, chunkLines_traceFile, List.map_replicate]
  · intro chunk member
    rw [List.eq_of_mem_replicate member]
    decide
  · intro chunk member
    rw [List.eq_of_mem_replicate member]
    decide

theorem chunkOf_repeated :
    chunkOf (chunkLine ("3:0:0:0:0:0", "8") ++ [10]) = some (Fp.ofBytes [3], chars ['8']) := by
  decide +kernel

theorem seenBy_repeatedTrace (n : Nat) : seenBy [repeatedTrace n] = List.replicate n (Fp.ofBytes [3], chars ['8']) := by
  rw [seenBy, List.flatMap_singleton, chunkLines_repeatedTrace, List.filterMap_replicate_of_some chunkOf_repeated]

def repeatedState (n : Nat) : ReadChunks.State :=
  ⟨OrderedMap.empty.put (Fp.ofBytes [3]) (decimal n), OrderedMap.empty.put (chars ['8']) (Fp.ofBytes [3]).bytes, 0, 0⟩

theorem feed_repeatedTrace {n : Nat} (few : n + 1 ≤ 2 ^ 31) :
    ∃ s, feed [repeatedTrace (n + 1)] = .ok s ∧ s.restart = repeatedState (n + 1) := by
  have counted : ∀ x, occurrences (seenBy [repeatedTrace (n + 1)]) x = if Fp.ofBytes [3] == x then n + 1 else 0 := by
    intro x
    rw [seenBy_repeatedTrace, occurrences, List.map_replicate, List.count_replicate]
  have within : ∀ x, occurrences (seenBy [repeatedTrace (n + 1)]) x ≤ 2 ^ 31 := by
    intro x
    rw [counted]
    split <;> omega
  obtain ⟨s, fed⟩ := feed_isOk within (by
    intro line member
    rw [List.flatMap_singleton, chunkLines_repeatedTrace] at member
    rw [List.eq_of_mem_replicate member, chunkOf_repeated]
    exact Option.some_ne_none _)
  have kept := feed_represents fed within
  have fcDb : s.fcDb = OrderedMap.empty.put (Fp.ofBytes [3]) (decimal (n + 1)) := by
    apply OrderedMap.ext_get
    intro x
    rw [kept.counts x, counted, seenBy_repeatedTrace, OrderedMap.get_put, OrderedMap.get_empty]
    by_cases same : x = Fp.ofBytes [3]
    · simp [same]
    · simp [same]
  have sfDb : s.sfDb = OrderedMap.empty.put (chars ['8']) (Fp.ofBytes [3]).bytes := by
    apply OrderedMap.ext_get
    intro size
    rw [kept.buckets size, seenBy_repeatedTrace, group, newcomers_replicate, OrderedMap.get_put, OrderedMap.get_empty]
    by_cases same : size = chars ['8']
    · simp [same, pack]
    · simp [same, Ne.symm same]
  exact ⟨s, fed, by rw [ReadChunks.State.restart, fcDb, sfDb, repeatedState]⟩

theorem feed_pair {fp fp' : Bytes} {s : ReadChunks.State} (fed : feed [fp] = .ok s) :
    feed [fp, fp'] = readInChunks s.restart fp' := by
  have joined : feed ([fp] ++ [fp']) = readInChunks s fp' := by
    rw [feed, List.foldlM_append, ← feed, fed]
    exact bind_pure (readInChunks s fp')
  exact joined

theorem ok_getD {e : Except Stop ReadChunks.State} (finished : e.toOption.isSome) :
    e = .ok (e.toOption.getD .init) := by
  cases e with
  | error stop => cases finished
  | ok s => rfl

/-- After 2^31 occurrences the count is read as a negative `int`. Three more take it to 2^64 - 2^31 + 1,
to 0 and to 1, so that the chunk is stored a second time, and paired with both plaintext chunks. -/
theorem inferTest_overflow : ∃ c m, feed [repeatedTrace (2 ^ 31), repeatedTrace 3] = .ok c ∧
    feed [plainTrace] = .ok m ∧ ∃ r, inferTest listHeap (Databases.of c m) digest 2 = some r ∧
      ¬ (r.pairs.map fun p => p.2.key).Nodup := by
  have more := ok_getD (e := readInChunks (repeatedState (2 ^ 31)) (repeatedTrace 3)) (by decide +kernel)
  have fedM := ok_getD (e := feed [plainTrace]) (by decide +kernel)
  obtain ⟨s, first, same⟩ := feed_repeatedTrace (n := 2 ^ 31 - 1) (by decide)
  have fedC : feed [repeatedTrace (2 ^ 31), repeatedTrace 3] = _ := feed_pair first
  rw [same] at fedC
  replace fedC := fedC.trans more
  refine ⟨_, _, fedC, fedM, ?_⟩
  have paired : (inferTest listHeap (Databases.of
      ((readInChunks (repeatedState (2 ^ 31)) (repeatedTrace 3)).toOption.getD .init)
      ((feed [plainTrace]).toOption.getD .init)) digest 2).map (fun r => r.pairs.map fun p => p.2.key) =
        some [Fp.ofBytes [3], Fp.ofBytes [3]] := by
    decide +kernel
  obtain ⟨r, finished, pairs⟩ := Option.map_eq_some_iff.mp paired
  refine ⟨r, finished, ?_⟩
  rw [pairs]
  decide

end EncryptedDedup.InferChunks
