import EncryptedDedup.SDFS.FlushClaims
import EncryptedDedup.SDFS.RecordPut

/-!
# The record that a flush writes

`writeCache` cuts the bytes of a chunk into fingers, and gives an extent to each. The bytes of the extents are those
of the chunk.
-/

namespace EncryptedDedup.SDFS

open WritableCacheBuffer

variable {σ : Type} {V : Services σ}

/-- The hash engine cuts a chunk into no more fingers than a record has room for, and no two of them have one hash and
different bytes. -/
structure Services.Regular (V : Services σ) : Prop where
  few : ∀ b : Bytes, b.length = V.config.chunkLength → (V.getChunks b).length ≤ V.config.maxElementsPerAr
  unique : ∀ {b f g}, f ∈ V.getChunks b → g ∈ V.getChunks b → f.hash = g.hash → f.chunk = g.chunk

def Fingers.AllSized (ar : Fingers) : Prop := ∀ k h, ar.entry k = some h → 0 ≤ h.len

theorem Fingers.recordable {s : σ} {ar : Fingers} (wf : ar.WellFormed V.config.chunkLength) (all : AllStored V s ar)
    (sized : ar.AllSized) (few : ar.size ≤ V.config.maxElementsPerAr) (typed : ∀ p ∈ ar.values, p.Typed V.config) :
    ar.Recordable V.config := by
  refine ⟨wf, typed, fun p member => ?_, few⟩
  obtain ⟨k, stored⟩ := Fingers.mem_values.mp member
  obtain ⟨c, -, -, low, -, -, -⟩ := all k p stored
  have keyed := wf.extents.keyed stored
  have start := wf.extents.start stored
  have filled := wf.extents.filled stored
  have size := sized k p stored
  unfold HashLocPair.Corrupt
  omega

/-! ### The map of extents in order -/

theorem entry_putAll {ps : List HashLocPair} (ascending : SparseDataChunk.Ascending ps) {ar : Fingers}
    (fresh : ∀ {k r}, ar.tree.get k = some r → r < ar.allocated) {k : Int} {h : HashLocPair} :
    (ps.foldl (fun ar p => ar.put p.pos p) ar).entry k = some h ↔
      (h ∈ ps ∧ h.pos = k) ∨ (ar.entry k = some h ∧ ∀ p ∈ ps, p.pos ≠ k) := by
  induction ps generalizing ar with
  | nil => simp
  | cons p ps ih =>
    obtain ⟨first, rest⟩ := List.pairwise_cons.mp ascending
    rw [List.foldl_cons, ih rest (Fingers.allocated_put fresh p.pos p), Fingers.entry_put fresh]
    by_cases here : k = p.pos
    · have others : ∀ q ∈ ps, q.pos ≠ k := by
        intro q member
        have less := first q member
        omega
      simp only [if_pos here, Option.some.injEq, List.mem_cons, forall_eq_or_imp]
      constructor
      · rintro (⟨later, own⟩ | ⟨rfl, -⟩)
        · exact .inl ⟨.inr later, own⟩
        · exact .inl ⟨.inl rfl, here.symm⟩
      · rintro (⟨rfl | later, own⟩ | ⟨-, apart, -⟩)
        · exact .inr ⟨rfl, others⟩
        · exact .inl ⟨later, own⟩
        · exact absurd here.symm apart
    · simp only [if_neg here, List.mem_cons, forall_eq_or_imp]
      constructor
      · rintro (⟨later, own⟩ | ⟨old, apart⟩)
        · exact .inl ⟨.inr later, own⟩
        · exact .inr ⟨old, Ne.symm here, apart⟩
      · rintro (⟨rfl | later, own⟩ | ⟨old, -, apart⟩)
        · exact absurd own.symm here
        · exact .inl ⟨later, own⟩
        · exact .inr ⟨old, apart⟩

theorem allocated_putAll (ps : List HashLocPair) {ar : Fingers} (fresh : ∀ {k r}, ar.tree.get k = some r → r < ar.allocated) :
    ∀ {k r}, (ps.foldl (fun ar p => ar.put p.pos p) ar).tree.get k = some r →
      r < (ps.foldl (fun ar p => ar.put p.pos p) ar).allocated := by
  induction ps generalizing ar with
  | nil => exact fresh
  | cons p ps ih => exact ih (Fingers.allocated_put fresh p.pos p)

theorem Fingers.entry_ofValues {ps : List HashLocPair} (ascending : SparseDataChunk.Ascending ps) {k : Int}
    {h : HashLocPair} : (ofValues ps).entry k = some h ↔ h ∈ ps ∧ h.pos = k := by
  unfold ofValues
  rw [entry_putAll ascending fun {k r} found => by cases found]
  constructor
  · rintro (there | ⟨none_, -⟩)
    · exact there
    · cases none_
  · exact .inl

theorem Fingers.allocated_ofValues (ps : List HashLocPair) :
    ∀ {k r}, (ofValues ps).tree.get k = some r → r < (ofValues ps).allocated :=
  allocated_putAll ps fun {k r} found => by cases found

theorem Fingers.WellFormed.entry_ofValues {chunkLength : Int} {ar : Fingers} (wf : ar.WellFormed chunkLength) (k : Int) :
    (ofValues ar.values).entry k = ar.entry k := by
  apply Option.ext
  intro h
  rw [Fingers.entry_ofValues (SparseDataChunk.ascending_of_keyed wf.keyed), SparseDataChunk.entry_of_keyed wf.keyed]

theorem Fingers.WellFormed.ofValues {chunkLength : Int} {ar : Fingers} (wf : ar.WellFormed chunkLength) :
    (ofValues ar.values).WellFormed chunkLength := by
  have same : (Fingers.ofValues ar.values).entry = ar.entry := funext wf.entry_ofValues
  refine ⟨?_, allocated_ofValues _⟩
  rw [same]
  exact wf.extents

/-! ### The extents of the fingers -/

/-- The extents `ps` are those of the fingers, one behind the other from `start` on. -/
inductive Laid (hls : Bytes → Option InsertRecord) : Int → List Finger → List HashLocPair → Prop
  | nil (start : Int) : Laid hls start [] []
  | cons {start : Int} {f : Finger} {fs : List Finger} {ps : List HashLocPair} (hl : InsertRecord) (dup : Bool) :
    hls f.hash = some hl → Laid hls (start + f.len) fs ps →
      Laid hls start (f :: fs) (⟨f.hash, hl.hashlocs, f.len, start, 0, f.len, dup, false⟩ :: ps)

variable {hls : Bytes → Option InsertRecord} {fs : List Finger} {start : Int} {ps : List HashLocPair}

def fingerBytes (fs : List Finger) : Bytes := (fs.map Finger.chunk).flatten

theorem Laid.spec (laid : Laid hls start fs ps) (filled : ∀ f ∈ fs, f.chunk ≠ []) (len : ∀ f ∈ fs, f.len = f.chunk.length) :
    (∀ p ∈ ps, start ≤ p.pos ∧ p.pos + p.nlen ≤ start + (fingerBytes fs).length ∧ p.offset = 0 ∧
      ∃ f ∈ fs, ∃ hl, hls f.hash = some hl ∧ p.hash = f.hash ∧ p.hashloc = hl.hashlocs ∧ p.len = f.chunk.length ∧
        p.nlen = f.chunk.length ∧ ∀ x, p.covers x = true → byteAt f.chunk (x - p.pos) = byteAt (fingerBytes fs) (x - start)) ∧
    ps.Pairwise (fun p q => p.pos + p.nlen ≤ q.pos) ∧ ps.length = fs.length ∧
    ∀ x, start ≤ x → x < start + (fingerBytes fs).length → ∃ p ∈ ps, p.covers x = true := by
  induction laid with
  | nil start =>
    refine ⟨fun p member => absurd member List.not_mem_nil, List.Pairwise.nil, rfl, fun x from_ before => ?_⟩
    change x < start + 0 at before
    omega
  | @cons start f fs ps hl dup there laid ih =>
    obtain ⟨own, others⟩ := List.forall_mem_cons.mp filled
    obtain ⟨size, sizes⟩ := List.forall_mem_cons.mp len
    obtain ⟨every, apart, number, covered⟩ := ih others sizes
    have positive := List.length_pos_iff.mpr own
    have bytes : fingerBytes (f :: fs) = f.chunk ++ fingerBytes fs := rfl
    have total : (fingerBytes (f :: fs)).length = f.chunk.length + (fingerBytes fs).length := by
      rw [bytes, List.length_append]
    refine ⟨fun p member => ?_, ?_, by simp [number], fun x from_ before => ?_⟩
    · rcases List.mem_cons.mp member with rfl | later
      · dsimp only
        refine ⟨le_refl _, by omega, rfl, f, List.mem_cons_self, hl, there, rfl, rfl, size, size, fun x inside => ?_⟩
        rw [HashLocPair.covers_iff] at inside
        dsimp only at inside
        rw [bytes, byteAt_append, if_pos (by omega)]
      · obtain ⟨low, high, offset, g, listed, hl', there', hash, hashloc, whole, part, same⟩ := every p later
        refine ⟨by omega, by omega, offset, g, List.mem_cons_of_mem _ listed, hl', there', hash, hashloc, whole, part,
          fun x inside => ?_⟩
        have byte := same x inside
        rw [HashLocPair.covers_iff] at inside
        have shift : x - (start + f.len) = x - start - f.chunk.length := by omega
        rw [byte, bytes, byteAt_append, if_neg (by omega), shift]
    · refine List.pairwise_cons.mpr ⟨fun q later => ?_, apart⟩
      exact (every q later).1
    · by_cases first : x < start + f.len
      · exact ⟨_, List.mem_cons_self, HashLocPair.covers_iff.mpr ⟨from_, first⟩⟩
      · obtain ⟨p, later, inside⟩ := covered x (by omega) (by omega)
        exact ⟨p, List.mem_cons_of_mem _ later, inside⟩

namespace Services

theorem layFingers_laid (known : ∀ f ∈ fs, ∃ hl, hls f.hash = some hl) (seen : List Bytes) (start : Int) :
    ∃ ps, layFingers hls seen start fs = some ps ∧ Laid hls start fs ps := by
  induction fs generalizing seen start with
  | nil => exact ⟨[], rfl, .nil start⟩
  | cons f fs ih =>
    obtain ⟨⟨hl, there⟩, rest⟩ := List.forall_mem_cons.mp known
    obtain ⟨ps, later, laid⟩ := ih rest (f.hash :: seen) (start + f.len)
    refine ⟨_, ?_, .cons hl (seen.any (fun hash => hash = f.hash) || !hl.inserted) there laid⟩
    rw [layFingers, there]
    dsimp only [Option.bind_eq_bind, Option.bind_some]
    rw [later]
    rfl

/-! ### Writing the fingers -/

/-- Where every finger is written, what is written stays. -/
theorem writeFingers_stores (ideal : V.Ideal) {a : Bytes} {es : List (Finger × Int)} (cut : ∀ e ∈ es, e.1 ∈ V.getChunks a)
    (distinct : (es.map fun e => e.1.hash).Nodup) {s s' : σ × Claims} {hls : Bytes → Option InsertRecord}
    (written : V.writeFingers s es = some (s', hls)) :
    V.Keeps s.1 s'.1 ∧ ∀ e ∈ es, ∃ hl, hls e.1.hash = some hl ∧ V.Wrote (e.1, hl) ∧
      ∀ d, V.fetchChunk s'.1 e.1.hash hl.hashlocs d = some e.1.chunk := by
  induction es generalizing s hls with
  | nil =>
    obtain ⟨rfl, -⟩ := Prod.mk.inj (Option.some.inj written)
    exact ⟨fun found => found, fun e member => absurd member List.not_mem_nil⟩
  | cons e es ih =>
    obtain ⟨f, claims⟩ := e
    obtain ⟨own, others⟩ := List.forall_mem_cons.mp cut
    rw [List.map_cons, List.nodup_cons] at distinct
    obtain ⟨alone, distinct⟩ := distinct
    unfold writeFingers at written
    obtain ⟨⟨store, hl⟩, wrote, written⟩ := Option.bind_eq_some_iff.mp written
    obtain ⟨⟨s'', later⟩, rest, result⟩ := Option.bind_eq_some_iff.mp written
    obtain ⟨rfl, rfl⟩ := Prod.mk.inj (Option.some.inj result)
    obtain ⟨keeps, every⟩ := ih others distinct rest
    refine ⟨fun found => keeps (ideal.kept own wrote found), fun e member => ?_⟩
    rcases List.mem_cons.mp member with rfl | there
    · exact ⟨hl, Function.update_self .., ⟨s.1, store, wrote⟩, fun d => keeps (ideal.fetched own wrote d)⟩
    · obtain ⟨hl', found, wrote', fetched'⟩ := every e there
      have other : e.1.hash ≠ f.hash := fun same => alone (same ▸ List.mem_map_of_mem there)
      exact ⟨hl', by rw [Function.update_of_ne other]; exact found, wrote', fetched'⟩

theorem finger_of_countFingers {hash : Bytes} {e : Finger × Int} (counted : (countFingers fs).get hash = some e) : e.1 ∈ fs := by
  induction fs using List.reverseRecOn generalizing hash e with
  | nil => cases counted
  | append_singleton fs g ih =>
    rw [countFingers_concat, countFinger] at counted
    by_cases same : hash = g.hash
    · rw [same, OrderedMap.get_put_same] at counted
      obtain rfl := Option.some.inj counted
      generalize there : (countFingers fs).get g.hash = old
      cases old with
      | none => exact List.mem_append_right _ (List.mem_singleton.mpr rfl)
      | some first =>
        have member := ih there
        exact List.mem_append_left _ member
    · rw [OrderedMap.get_put_other _ _ same] at counted
      exact List.mem_append_left _ (ih counted)

theorem writeFingers_record (cuts : V.Cuts) (ideal : V.Ideal) (readable : V.Readable) (regular : V.Regular)
    (small : V.config.chunkLength < 2 ^ 31) {order : List (Finger × Int) → List (Finger × Int)}
    (shuffled : ∀ es, (order es).Perm es) {a : Bytes} (length : a.length = V.config.chunkLength) {s : σ × Claims}
    (writes : (V.writeFingers s (order ((countFingers (V.getChunks a)).entries.map Prod.snd))).isSome) :
    ∃ s' hls ps, V.writeFingers s (order ((countFingers (V.getChunks a)).entries.map Prod.snd)) = some (s', hls) ∧
      layFingers hls [] 0 (V.getChunks a) = some ps ∧ V.Keeps s.1 s'.1 ∧
      (Fingers.ofValues ps).WellFormed V.config.chunkLength ∧ AllStored V s'.1 (.ofValues ps) ∧
      (Fingers.ofValues ps).AllSized ∧ (Fingers.ofValues ps).size ≤ V.config.maxElementsPerAr ∧
      ∀ d, contents V s'.1 d (.ofValues ps) = byteAt a := by
  have perm := shuffled ((countFingers (V.getChunks a)).entries.map Prod.snd)
  have distinct : ((order ((countFingers (V.getChunks a)).entries.map Prod.snd)).map fun e => e.1.hash).Nodup := by
    rw [(perm.map fun e => e.1.hash).nodup_iff, hashes_countFingers]
    exact (countFingers (V.getChunks a)).keys_nodup
  have cut : ∀ e ∈ order ((countFingers (V.getChunks a)).entries.map Prod.snd), e.1 ∈ V.getChunks a := by
    intro e member
    obtain ⟨⟨hash, e'⟩, listed, rfl⟩ := List.mem_map.mp (perm.mem_iff.mp member)
    exact finger_of_countFingers ((OrderedMap.get_eq_some _ _ _).mpr listed)
  obtain ⟨⟨s', hls⟩, written⟩ := Option.isSome_iff_exists.mp writes
  obtain ⟨keeps, every⟩ := writeFingers_stores ideal cut distinct written
  -- The finger that is written for a hash has the same bytes as every other one with it.
  have known : ∀ f ∈ V.getChunks a, ∃ hl, hls f.hash = some hl ∧ V.Wrote (f, hl) ∧
      ∀ d, V.fetchChunk s'.1 f.hash hl.hashlocs d = some f.chunk := by
    intro f member
    rcases get_countFingers (V.getChunks a) f.hash with ⟨none_, -⟩ | ⟨g, same, -, counted⟩
    · refine absurd none_ (Nat.ne_of_gt (List.countP_pos_iff.mpr ⟨f, member, ?_⟩))
      exact decide_eq_true rfl
    · have listed := List.mem_map_of_mem (f := Prod.snd) ((OrderedMap.get_eq_some _ _ _).mp counted)
      obtain ⟨hl, there, wrote, fetched⟩ := every _ (perm.mem_iff.mpr listed)
      have bytes := regular.unique (finger_of_countFingers counted) member same
      dsimp only at there fetched
      rw [same] at there fetched
      rw [bytes] at fetched
      refine ⟨hl, there, ?_, fetched⟩
      obtain ⟨s₀, s₁, wrote⟩ := wrote
      dsimp only at wrote
      rw [same, bytes] at wrote
      exact ⟨s₀, s₁, wrote⟩
  obtain ⟨ps, laid, lays⟩ := layFingers_laid (fun f member => by
    obtain ⟨hl, there, -⟩ := known f member
    exact ⟨hl, there⟩) [] 0
  obtain ⟨spec, apart, number, covered⟩ := lays.spec (cuts.filled a) (cuts.len a)
  have whole : fingerBytes (V.getChunks a) = a := cuts.all a
  rw [whole] at spec covered
  have positions : ∀ p ∈ ps, 0 ≤ p.pos ∧ 0 < p.nlen ∧ p.pos + p.nlen ≤ V.config.chunkLength := by
    intro p member
    obtain ⟨low, high, -, f, listed, hl, -, -, -, -, part, -⟩ := spec p member
    have filled := List.length_pos_iff.mpr (cuts.filled a f listed)
    exact ⟨low, by omega, by omega⟩
  have ascending : SparseDataChunk.Ascending ps := by
    refine apart.imp_of_mem fun {p q} member _ behind => ?_
    have filled := (positions p member).2.1
    omega
  have disjoint : ∀ p ∈ ps, ∀ q ∈ ps, p.pos < q.pos → p.pos + p.nlen ≤ q.pos := by
    have either : ps.Pairwise fun p q => (p.pos < q.pos → p.pos + p.nlen ≤ q.pos) ∧ (q.pos < p.pos → q.pos + q.nlen ≤ p.pos) := by
      refine apart.imp_of_mem fun {p q} member _ behind => ⟨fun _ => behind, fun less => ?_⟩
      have filled := (positions p member).2.1
      omega
    intro p member q member'
    by_cases same : p = q
    · rw [same]
      omega
    · have symmetric : Std.Symm fun p q : HashLocPair =>
          (p.pos < q.pos → p.pos + p.nlen ≤ q.pos) ∧ (q.pos < p.pos → q.pos + q.nlen ≤ p.pos) :=
        ⟨fun p q both => ⟨both.2, both.1⟩⟩
      exact (either.forall member member' same).1
  have entry {k : Int} {h : HashLocPair} : (Fingers.ofValues ps).entry k = some h ↔ h ∈ ps ∧ h.pos = k :=
    Fingers.entry_ofValues ascending
  have wf : (Fingers.ofValues ps).WellFormed V.config.chunkLength := by
    refine ⟨⟨fun stored => (entry.mp stored).2, fun {k h} stored => ?_, fun stored => (positions _ (entry.mp stored).1).2.1,
      fun {k h} stored => ?_, fun {k h k' h'} stored stored' less => ?_⟩, Fingers.allocated_ofValues ps⟩
    · obtain ⟨member, rfl⟩ := entry.mp stored
      exact (positions h member).1
    · obtain ⟨member, rfl⟩ := entry.mp stored
      exact (positions h member).2.2
    · obtain ⟨member, rfl⟩ := entry.mp stored
      obtain ⟨member', rfl⟩ := entry.mp stored'
      exact disjoint h member h' member' less
  have refers : ∀ p ∈ ps, ∃ c, Refers V s'.1 p c ∧ 0 ≤ p.len ∧
      ∀ x, p.covers x = true → byteAt c (p.offset + (x - p.pos)) = byteAt a x := by
    intro p member
    obtain ⟨low, high, offset, f, listed, hl, there, hash, hashloc, len, part, same⟩ := spec p member
    obtain ⟨hl', there', ⟨s₀, s₁, wrote⟩, fetched⟩ := known f listed
    obtain rfl := Option.some.inj (there.symm.trans there')
    refine ⟨f.chunk, ⟨?_, fun d => ?_, by omega, by omega, by omega, fun blank => ?_⟩, by omega, fun x inside => ?_⟩
    · unfold HashLocPair.located
      rw [hashloc]
      exact decide_eq_true (readable.located wrote)
    · rw [hash, hashloc]
      exact fetched d
    · rw [hash] at blank
      exact readable.blank listed blank
    · have byte := same x inside
      rw [sub_zero] at byte
      rw [offset, zero_add]
      exact byte
  refine ⟨s', hls, ps, written, laid, keeps, wf, fun k h stored => ?_, fun k h stored => ?_, ?_, fun d => funext fun x => ?_⟩
  · obtain ⟨c, there, -⟩ := refers h (entry.mp stored).1
    exact ⟨c, there⟩
  · obtain ⟨c, -, sized, -⟩ := refers h (entry.mp stored).1
    exact sized
  · rw [← SparseDataChunk.length_values, Fingers.values_ofValues ascending, number]
    exact regular.few a length
  · by_cases inside : 0 ≤ x ∧ x < V.config.chunkLength
    · obtain ⟨p, member, covers⟩ := covered x inside.1 (by omega)
      obtain ⟨c, there, -, same⟩ := refers p member
      rw [contents_of_entry wf (entry.mpr ⟨member, rfl⟩) there covers]
      exact same x covers
    · rw [byteAt_eq_none (by omega), contents_of_blank]
      cases denoted : (Fingers.ofValues ps).denotes x with
      | none => rfl
      | some q =>
        obtain ⟨k, h, stored, covers, -⟩ := (wf.denotes_iff x q).mp denoted
        obtain ⟨member, -⟩ := entry.mp stored
        have range := positions h member
        rw [HashLocPair.covers_iff] at covers
        omega

end Services

end EncryptedDedup.SDFS
