import EncryptedDedup.SDFS.ExtentMap
import EncryptedDedup.SDFS.SparseDataChunk

/-!
# Round trips of chunk records

What the encoder writes from version 2 on, and what the decoder makes of it. The marks of duplicate
entries are not in the record.
-/

namespace EncryptedDedup.SDFS

theorem orThrow_some {α β : Type} (a : α) (e : Thrown) (f : α → Except Thrown β) : (orThrow (some a) e >>= f) = f a :=
  rfl

theorem int_int (x : Int) : int (int x) = int x := Int.bmod_bmod

/-! ### Entries -/

namespace HashLocPair

/-- The arrays have their lengths, and the fields are of type `int`. -/
structure Typed (K : Config) (h : HashLocPair) : Prop where
  hash : h.hash.length = K.hashLength
  hashloc : h.hashloc.length = 8
  len : int h.len = h.len
  pos : int h.pos = h.pos
  offset : int h.offset = h.offset
  nlen : int h.nlen = h.nlen

def Corrupt (h : HashLocPair) : Prop := h.len < 0 ∨ h.pos < 0 ∨ h.offset < 0 ∨ h.nlen < 0

instance instDecidableCorrupt (h : HashLocPair) : Decidable h.Corrupt := inferInstanceAs (Decidable (_ ∨ _))

theorem checked {α : Type} (h : HashLocPair) (a : α) :
    (do h.checkCorrupt; return a) = if h.Corrupt then .error (.dataIsCorrupt h) else .ok a := by
  have check : h.checkCorrupt = if h.Corrupt then .error (.dataIsCorrupt h) else .ok () := rfl
  rw [check]
  split
  · rfl
  · rfl

def record (h : HashLocPair) : Bytes :=
  h.hash ++ (h.hashloc ++ (toBE32 h.len ++ (toBE32 h.pos ++ (toBE32 h.offset ++ (toBE32 h.nlen ++ [])))))

theorem Typed.clone {K : Config} {h : HashLocPair} (typed : h.Typed K) : h.clone.Typed K :=
  ⟨typed.hash, typed.hashloc, typed.len, typed.pos, typed.offset, typed.nlen⟩

theorem Typed.length_record {K : Config} {h : HashLocPair} (typed : h.Typed K) : h.record.length = K.bal := by
  simp only [record, Config.bal, List.length_append, length_toBE32, typed.hash, typed.hashloc, List.length_nil]

theorem Typed.asArray_eq {K : Config} {h : HashLocPair} (typed : h.Typed K) :
    h.asArray K = if h.Corrupt then .error (.dataIsCorrupt h) else .ok h.record := by
  have parts : [h.hash, h.hashloc, toBE32 h.len, toBE32 h.pos, toBE32 h.offset, toBE32 h.nlen].flatten = h.record := rfl
  have length := typed.length_record
  rw [asArray, ByteBuffer.allocate_eq, ByteBuffer.putAll_written, parts, if_pos (by omega), orThrow_some, length,
    Nat.sub_self, List.nil_append, ByteBuffer.array_written, checked]

theorem Typed.ofArray_record {K : Config} {h : HashLocPair} (typed : h.Typed K) :
    ofArray K h.record = if h.Corrupt then .error (.dataIsCorrupt h.clone) else .ok h.clone := by
  have hash (w v : Bytes) := ByteBuffer.get_read w h.hash v
  have hashloc (w v : Bytes) := ByteBuffer.get_read w h.hashloc v
  rw [typed.hash] at hash
  rw [typed.hashloc] at hashloc
  have len : h.len.bmod (2 ^ 32) = h.len := typed.len
  have pos : h.pos.bmod (2 ^ 32) = h.pos := typed.pos
  have offset : h.offset.bmod (2 ^ 32) = h.offset := typed.offset
  have nlen : h.nlen.bmod (2 ^ 32) = h.nlen := typed.nlen
  rw [ofArray, record, ByteBuffer.wrap_eq]
  dsimp only
  rw [hash, orThrow_some]
  dsimp only
  rw [hashloc, orThrow_some]
  dsimp only
  rw [ByteBuffer.getInt_read, orThrow_some]
  dsimp only
  rw [ByteBuffer.getInt_read, orThrow_some]
  dsimp only
  rw [ByteBuffer.getInt_read, orThrow_some]
  dsimp only
  rw [ByteBuffer.getInt_read, orThrow_some]
  dsimp only
  rw [len, pos, offset, nlen]
  exact checked h.clone h.clone

end HashLocPair

/-! ### Records -/

/-- The bytes of the entries that are marked as duplicates. -/
def dupBytes (ps : List HashLocPair) : Int := ((ps.filter HashLocPair.dup).map HashLocPair.nlen).sum

def records (ps : List HashLocPair) : Bytes := (ps.map HashLocPair.record).flatten

/-- The bytes of a chunk. -/
def chunkRecord (K : Config) (flags : UInt8) (ps : List HashLocPair) (doop : Int) : Bytes :=
  [flags] ++ (toBE32 (1 + 4 + 4 + 4 + ps.length * K.bal) ++ (toBE32 ps.length ++ (records ps ++ (toBE32 doop ++ []))))

theorem length_records {K : Config} {ps : List HashLocPair} (typed : ∀ p ∈ ps, p.Typed K) :
    (records ps).length = ps.length * K.bal := by
  induction ps with
  | nil => exact (Nat.zero_mul _).symm
  | cons p ps ih =>
    obtain ⟨first, rest⟩ := List.forall_mem_cons.mp typed
    have split : records (p :: ps) = p.record ++ records ps := rfl
    rw [split, List.length_append, first.length_record, ih rest, List.length_cons, Nat.succ_mul, Nat.add_comm]

namespace SparseDataChunk

variable {K : Config}

/-! ### Encoding -/

theorem putEntries_eq {ps : List HashLocPair} (typed : ∀ p ∈ ps, p.Typed K) (sound : ∀ p ∈ ps, ¬ p.Corrupt)
    (c : SparseDataChunk) (counted : int c.doop = c.doop) (w : Bytes) {k : Nat} (room : ps.length * K.bal ≤ k) :
    ∃ c', putEntries K c (.written w k) ps = (c', .ok (.written (w ++ records ps) (k - ps.length * K.bal))) ∧
      c'.doop = int (c.doop + dupBytes ps) := by
  induction ps generalizing c w k with
  | nil =>
    refine ⟨c, ?_, ?_⟩
    · simp [putEntries, records]
    · simp [dupBytes, counted]
  | cons p ps ih =>
    obtain ⟨first, rest⟩ := List.forall_mem_cons.mp typed
    obtain ⟨soundFirst, soundRest⟩ := List.forall_mem_cons.mp sound
    rw [List.length_cons, Nat.succ_mul] at room
    have width := first.length_record
    rw [putEntries, first.asArray_eq, if_neg soundFirst]
    dsimp only
    rw [ByteBuffer.put_written, if_pos (by omega), width]
    dsimp only
    have left : k - (p :: ps).length * K.bal = k - K.bal - ps.length * K.bal := by
      rw [List.length_cons, Nat.succ_mul]
      omega
    have bytes : w ++ records (p :: ps) = w ++ p.record ++ records ps := (List.append_assoc w p.record _).symm
    rw [left, bytes]
    cases marked : p.dup with
    | true =>
      obtain ⟨c', put, doop⟩ := ih rest soundRest
        { c with doop := int (c.doop + p.nlen), len := int (c.len + p.nlen) } (int_int _) (w ++ p.record)
        (k := k - K.bal) (by omega)
      have counts : dupBytes (p :: ps) = p.nlen + dupBytes ps := by simp [dupBytes, marked]
      refine ⟨c', put, ?_⟩
      rw [doop, counts, int_int_add, add_assoc]
    | false =>
      obtain ⟨c', put, doop⟩ := ih rest soundRest { c with len := int (c.len + p.nlen) } counted (w ++ p.record)
        (k := k - K.bal) (by omega)
      have counts : dupBytes (p :: ps) = dupBytes ps := by simp [dupBytes, marked]
      exact ⟨c', put, by rw [doop, counts]⟩

theorem putEntries_ok {ps : List HashLocPair} (typed : ∀ p ∈ ps, p.Typed K) {c : SparseDataChunk} {w : Bytes} {k : Nat}
    {buf : ByteBuffer} (done : (putEntries K c (.written w k) ps).2 = .ok buf) :
    (∀ p ∈ ps, ¬ p.Corrupt) ∧ ps.length * K.bal ≤ k := by
  induction ps generalizing c w k with
  | nil => exact ⟨fun _ member => absurd member List.not_mem_nil, by simp⟩
  | cons p ps ih =>
    obtain ⟨first, rest⟩ := List.forall_mem_cons.mp typed
    have width := first.length_record
    rw [putEntries, first.asArray_eq] at done
    by_cases corrupt : p.Corrupt
    · rw [if_pos corrupt] at done
      cases done
    · rw [if_neg corrupt] at done
      dsimp only at done
      rw [ByteBuffer.put_written, width] at done
      by_cases room : K.bal ≤ k
      · rw [if_pos room] at done
        obtain ⟨sound, enough⟩ := ih rest done
        refine ⟨List.forall_mem_cons.mpr ⟨corrupt, sound⟩, ?_⟩
        rw [List.length_cons, Nat.succ_mul]
        omega
      · rw [if_neg room] at done
        cases done

theorem length_values (ar : Fingers) : ar.values.length = ar.size := List.length_map _

theorem header_length (flags : UInt8) (x y : Int) : ([[flags], toBE32 x, toBE32 y].flatten).length = 9 := by
  simp

theorem putRecord_eq {c : SparseDataChunk} (typed : ∀ p ∈ c.ar.values, p.Typed K)
    (sound : ∀ p ∈ c.ar.values, ¬ p.Corrupt) (few : c.ar.size ≤ K.maxElementsPerAr) {capacity : Int}
    (room : capacity.toNat = 9 + (c.ar.values.length * K.bal + 4)) :
    ∃ c', putRecord K capacity c = (c', .ok ([c.flags] ++ (toBE32 capacity ++ (toBE32 c.ar.size ++
        (records c.ar.values ++ (toBE32 c'.doop ++ [])))))) ∧ c'.doop = int (dupBytes c.ar.values) := by
  obtain ⟨c', put, doop⟩ := putEntries_eq typed sound { c with prevdoop := c.doop, doop := 0, len := 0 } rfl
    ([[c.flags], toBE32 capacity, toBE32 c.ar.size].flatten) (k := c.ar.values.length * K.bal + 4) (by omega)
  rw [zero_add] at doop
  refine ⟨c', ?_, doop⟩
  rw [putRecord, if_neg (by omega)]
  dsimp only
  rw [room, ByteBuffer.allocate_eq, ByteBuffer.putAll_written, header_length, if_pos (by omega), List.nil_append]
  dsimp only
  rw [if_neg (by omega), Nat.add_sub_cancel_left, put]
  dsimp only
  rw [ByteBuffer.put_written, length_toBE32, Nat.add_sub_cancel_left, if_pos (le_refl _)]
  simp only [Nat.sub_self, ByteBuffer.array_written, List.flatten_cons, List.flatten_nil, List.append_assoc,
    List.append_nil]

theorem putRecord_ok {c : SparseDataChunk} (typed : ∀ p ∈ c.ar.values, p.Typed K) {capacity : Int} {raw : Bytes}
    (done : (putRecord K capacity c).2 = .ok raw) :
    c.ar.size ≤ K.maxElementsPerAr ∧ 9 + (c.ar.values.length * K.bal + 4) ≤ capacity.toNat ∧
      ∀ p ∈ c.ar.values, ¬ p.Corrupt := by
  rw [putRecord] at done
  split at done
  · cases done
  · dsimp only at done
    rw [ByteBuffer.allocate_eq, ByteBuffer.putAll_written, header_length] at done
    by_cases header : 9 ≤ capacity.toNat
    · rw [if_pos header, List.nil_append] at done
      dsimp only at done
      split at done
      · cases done
      · rename_i few
        split at done
        · cases done
        · rename_i c' buf entries
          obtain ⟨sound, enough⟩ := putEntries_ok typed (congrArg Prod.snd entries)
          obtain ⟨c'', put, -⟩ := putEntries_eq typed sound { c with prevdoop := c.doop, doop := 0, len := 0 } rfl
            ([[c.flags], toBE32 capacity, toBE32 c.ar.size].flatten) enough
          rw [put] at entries
          obtain ⟨-, same⟩ := Prod.mk.inj entries
          rw [← Except.ok.inj same, ByteBuffer.put_written, length_toBE32] at done
          by_cases last : 4 ≤ capacity.toNat - 9 - c.ar.values.length * K.bal
          · exact ⟨by omega, by omega, sound⟩
          · rw [if_neg last] at done
            cases done
    · rw [if_neg header] at done
      cases done

theorem putRecord_many {c : SparseDataChunk} (many : K.maxElementsPerAr < c.ar.size) (capacity : Int) :
    ∃ e, (putRecord K capacity c).2 = .error e := by
  rw [putRecord]
  dsimp only
  split
  · exact ⟨_, rfl⟩
  · split
    · exact ⟨_, rfl⟩
    · exact ⟨_, rfl⟩

theorem getBytes_eq_getBytes2 (c : SparseDataChunk) (modern : 2 ≤ c.version) : c.getBytes K = c.getBytes2 K := by
  have first : c.version ≠ 0 := by
    intro same
    rw [same] at modern
    exact absurd modern (by decide)
  have second : c.version ≠ 1 := by
    intro same
    rw [same] at modern
    exact absurd modern (by decide)
  rw [getBytes, if_neg first, if_neg second]

/-- The record of the chunk is not longer than an array can be. -/
def Fits (K : Config) (size : Nat) : Prop := 1 + 4 + 4 + 4 + size * K.bal < 2 ^ 31

theorem int_lt (x : Int) : int x < 2 ^ 31 := by
  rw [int, Int.bmod_def]
  split <;> omega

theorem getBytes_eq {c : SparseDataChunk} (modern : 2 ≤ c.version) (typed : ∀ p ∈ c.ar.values, p.Typed K)
    (sound : ∀ p ∈ c.ar.values, ¬ p.Corrupt) (few : c.ar.size ≤ K.maxElementsPerAr) (fits : Fits K c.ar.size) :
    ∃ c', c.getBytes K = (c', .ok (chunkRecord K c.flags c.ar.values (int (dupBytes c.ar.values)))) ∧
      c'.doop = int (dupBytes c.ar.values) := by
  have capacity : int (1 + 4 + 4 + 4 + c.ar.size * K.bal) = ((1 + 4 + 4 + 4 + c.ar.size * K.bal : Nat) : Int) := by
    unfold Fits at fits
    push_cast at fits ⊢
    apply int_eq
    · omega
    · exact_mod_cast fits
  have size := length_values c.ar
  have room : ((1 + 4 + 4 + 4 + c.ar.size * K.bal : Nat) : Int).toNat = 9 + (c.ar.values.length * K.bal + 4) := by
    rw [size, Int.toNat_natCast]
    omega
  obtain ⟨c', put, doop⟩ := putRecord_eq typed sound few room
  refine ⟨c', ?_, doop⟩
  rw [getBytes_eq_getBytes2 c modern, getBytes2, capacity, put, doop, chunkRecord, size]
  push_cast
  rfl

theorem getBytes_ok {c : SparseDataChunk} (modern : 2 ≤ c.version) (typed : ∀ p ∈ c.ar.values, p.Typed K) {raw : Bytes}
    (done : (c.getBytes K).2 = .ok raw) :
    c.ar.size ≤ K.maxElementsPerAr ∧ Fits K c.ar.size ∧ ∀ p ∈ c.ar.values, ¬ p.Corrupt := by
  rw [getBytes_eq_getBytes2 c modern, getBytes2] at done
  have bounded := int_lt (1 + 4 + 4 + 4 + c.ar.size * K.bal)
  obtain ⟨few, room, sound⟩ := putRecord_ok typed done
  rw [length_values] at room
  unfold Fits
  exact ⟨few, by omega, sound⟩

/-! ### Decoding -/

theorem length_of_fits {n : Nat} (fits : Fits K n) : int n = n := by
  have wide : n ≤ n * K.bal := Nat.le_mul_of_pos_right _ (by unfold Config.bal; omega)
  unfold Fits at fits
  exact int_eq (by omega) (by omega)

def load (ar : Fingers) (ps : List HashLocPair) : Fingers := ps.foldl (fun ar p => ar.put p.pos p.clone) ar

theorem getEntries_eq {ps : List HashLocPair} (typed : ∀ p ∈ ps, p.Typed K) (sound : ∀ p ∈ ps, ¬ p.Corrupt)
    (c : SparseDataChunk) (w v : Bytes) :
    ∃ len, getEntries K c (.read w (records ps ++ v)) ps.length =
      .ok ({ c with ar := load c.ar ps, len := len }, .read (w ++ records ps) v) := by
  induction ps generalizing c w with
  | nil => exact ⟨c.len, by simp [getEntries, records, load]⟩
  | cons p ps ih =>
    obtain ⟨first, rest⟩ := List.forall_mem_cons.mp typed
    obtain ⟨soundFirst, soundRest⟩ := List.forall_mem_cons.mp sound
    have bytes : records (p :: ps) ++ v = p.record ++ (records ps ++ v) := List.append_assoc _ _ _
    have got := ByteBuffer.get_read w p.record (records ps ++ v)
    rw [first.length_record] at got
    obtain ⟨len, read⟩ := ih rest soundRest
      { c with ar := c.ar.put p.pos p.clone, len := if c.len < p.clone.ep then p.clone.ep else c.len } (w ++ p.record)
    refine ⟨len, ?_⟩
    rw [bytes, List.length_cons, getEntries, got, orThrow_some]
    dsimp only
    rw [first.ofArray_record, if_neg soundFirst]
    have appended : w ++ records (p :: ps) = w ++ p.record ++ records ps := (List.append_assoc w p.record _).symm
    rw [appended]
    exact read

theorem ofBytes_chunkRecord {ps : List HashLocPair} (typed : ∀ p ∈ ps, p.Typed K) (sound : ∀ p ∈ ps, ¬ p.Corrupt)
    (fits : Fits K ps.length) (flags : UInt8) (doop : Int) {version : UInt8} (modern : 2 ≤ version) :
    ∃ c, ofBytes K (chunkRecord K flags ps doop) version = .ok c ∧ c.doop = int doop ∧ c.flags = flags ∧
      c.version = version ∧ c.ar = load Fingers.empty ps := by
  have first : version ≠ 0 := by
    rintro rfl
    exact absurd modern (by decide)
  have second : version ≠ 1 := by
    rintro rfl
    exact absurd modern (by decide)
  have zlen : (ps.length : Int).bmod (2 ^ 32) = ps.length := length_of_fits fits
  have got (v : Bytes) : (ByteBuffer.read [] ([flags] ++ v)).get 1 = some ([flags], ByteBuffer.read [flags] v) :=
    ByteBuffer.get_read [] [flags] v
  obtain ⟨len, read⟩ := getEntries_eq typed sound ⟨0, 0, 0, flags, version, Fingers.empty⟩
    ([flags] ++ toBE32 (1 + 4 + 4 + 4 + ps.length * K.bal) ++ toBE32 ps.length) (toBE32 doop ++ [])
  refine ⟨⟨int doop, 0, len, flags, version, load Fingers.empty ps⟩, ?_, rfl, rfl, rfl, rfl⟩
  rw [ofBytes, marshall, if_neg first, if_neg second, marshall2, chunkRecord, ByteBuffer.wrap_eq]
  dsimp only
  rw [got, orThrow_some]
  dsimp only
  rw [ByteBuffer.getInt_read, orThrow_some]
  dsimp only
  rw [ByteBuffer.getInt_read, orThrow_some]
  dsimp only
  rw [zlen, Int.toNat_natCast, List.headD_cons, read]
  have last : ∀ a : SparseDataChunk × ByteBuffer, (Except.ok a : Except Thrown _) = pure a := fun _ => rfl
  rw [last, pure_bind]
  dsimp only
  rw [ByteBuffer.getInt_read, orThrow_some]
  rfl

def Keyed (ar : Fingers) : Prop := ∀ k h, ar.entry k = some h → h.pos = k

theorem empty_keyed : Keyed Fingers.empty := by
  intro k h stored
  cases stored

theorem entry_of_keyed {ar : Fingers} (keyed : Keyed ar) {k : Int} {h : HashLocPair} :
    ar.entry k = some h ↔ h ∈ ar.values ∧ h.pos = k := by
  constructor
  · intro stored
    exact ⟨Fingers.mem_values.mpr ⟨k, stored⟩, keyed k h stored⟩
  · rintro ⟨member, rfl⟩
    obtain ⟨k, stored⟩ := Fingers.mem_values.mp member
    rwa [keyed k h stored]

def Ascending (ps : List HashLocPair) : Prop := ps.Pairwise fun p q => p.pos < q.pos

theorem ascending_of_keyed {ar : Fingers} (keyed : Keyed ar) : Ascending ar.values := by
  refine List.pairwise_map.mpr (ar.tree.sorted.imp_of_mem ?_)
  rintro ⟨k, r⟩ ⟨k', r'⟩ member member' less
  have stored := Fingers.entry_of_get ((OrderedMap.get_eq_some ar.tree k r).mpr member)
  have stored' := Fingers.entry_of_get ((OrderedMap.get_eq_some ar.tree k' r').mpr member')
  dsimp only
  rwa [keyed k _ stored, keyed k' _ stored']

theorem load_spec {ps : List HashLocPair} {ar : Fingers} (fresh : ∀ {k r}, ar.tree.get k = some r → r < ar.allocated)
    (keyed : Keyed ar) :
    Keyed (load ar ps) ∧ ∀ {k h}, (load ar ps).entry k = some h → ar.entry k = some h ∨ ∃ p ∈ ps, h = p.clone := by
  induction ps generalizing ar with
  | nil => exact ⟨keyed, Or.inl⟩
  | cons p ps ih =>
    have entries (k : Int) := Fingers.entry_put fresh p.pos k p.clone
    have keyed' : Keyed (ar.put p.pos p.clone) := by
      intro k h stored
      rw [entries] at stored
      split at stored
      · rename_i here
        rw [here, ← Option.some.inj stored]
        rfl
      · exact keyed k h stored
    obtain ⟨loaded, origin⟩ := ih (Fingers.allocated_put fresh p.pos p.clone) keyed'
    refine ⟨loaded, fun {k h} stored => ?_⟩
    rcases origin stored with old | ⟨q, member, same⟩
    · rw [entries] at old
      split at old
      · exact Or.inr ⟨p, List.mem_cons_self, (Option.some.inj old).symm⟩
      · exact Or.inl old
    · exact Or.inr ⟨q, List.mem_cons_of_mem _ member, same⟩

theorem values_put_last {ar : Fingers} (fresh : ∀ {k r}, ar.tree.get k = some r → r < ar.allocated) {k : Int}
    (below : ∀ e ∈ ar.tree.entries, e.1 < k) (h : HashLocPair) : (ar.put k h).values = ar.values ++ [h] := by
  have there : (ar.put k h).objects ar.allocated = h := if_pos rfl
  have others : ∀ e ∈ ar.tree.entries, (ar.put k h).objects e.2 = ar.objects e.2 := by
    intro e member
    have old := fresh ((OrderedMap.get_eq_some ar.tree e.1 e.2).mpr member)
    exact if_neg (by omega)
  have entries : (ar.put k h).tree.entries = ar.tree.entries ++ [(k, ar.allocated)] := OrderedMap.entries_put_last below
  rw [Fingers.values, entries, List.map_append, List.map_singleton, there, List.map_congr_left others, Fingers.values]

theorem values_putAll {ps : List HashLocPair} (ascending : Ascending ps) {ar : Fingers}
    (fresh : ∀ {k r}, ar.tree.get k = some r → r < ar.allocated)
    (below : ∀ e ∈ ar.tree.entries, ∀ p ∈ ps, e.1 < p.pos) :
    (ps.foldl (fun ar p => ar.put p.pos p) ar).values = ar.values ++ ps := by
  induction ps generalizing ar with
  | nil => exact (List.append_nil _).symm
  | cons p ps ih =>
    obtain ⟨first, rest⟩ := List.pairwise_cons.mp ascending
    have under : ∀ e ∈ ar.tree.entries, e.1 < p.pos := fun e member => below e member p List.mem_cons_self
    have entries : (ar.put p.pos p).tree.entries = ar.tree.entries ++ [(p.pos, ar.allocated)] :=
      OrderedMap.entries_put_last under
    have below' : ∀ e ∈ (ar.put p.pos p).tree.entries, ∀ q ∈ ps, e.1 < q.pos := by
      intro e member q later
      rw [entries] at member
      rcases List.mem_append.mp member with old | new
      · exact below e old q (List.mem_cons_of_mem _ later)
      · rw [List.mem_singleton.mp new]
        exact first q later
    rw [List.foldl_cons, ih rest (Fingers.allocated_put fresh p.pos p) below', values_put_last fresh under,
      List.append_assoc, List.singleton_append]

theorem values_load {ps : List HashLocPair} (ascending : Ascending ps) {ar : Fingers}
    (fresh : ∀ {k r}, ar.tree.get k = some r → r < ar.allocated)
    (below : ∀ e ∈ ar.tree.entries, ∀ p ∈ ps, e.1 < p.pos) :
    (load ar ps).values = ar.values ++ ps.map HashLocPair.clone := by
  have clones : Ascending (ps.map HashLocPair.clone) := List.pairwise_map.mpr ascending
  have under : ∀ e ∈ ar.tree.entries, ∀ p ∈ ps.map HashLocPair.clone, e.1 < p.pos := by
    intro e member p listed
    obtain ⟨q, original, rfl⟩ := List.mem_map.mp listed
    exact below e member q original
  rw [← values_putAll clones fresh under, List.foldl_map]
  rfl

theorem load_empty (ps : List HashLocPair) :
    Keyed (load Fingers.empty ps) ∧ ∀ p ∈ (load Fingers.empty ps).values, ∃ q ∈ ps, p = q.clone := by
  obtain ⟨keyed, origin⟩ := @load_spec ps _ (fun {k r} found => by cases found) empty_keyed
  refine ⟨keyed, fun p member => ?_⟩
  obtain ⟨k, stored⟩ := Fingers.mem_values.mp member
  rcases origin stored with old | new
  · cases old
  · exact new

theorem values_load_empty {ps : List HashLocPair} (ascending : Ascending ps) :
    (load Fingers.empty ps).values = ps.map HashLocPair.clone := by
  have none_ : ∀ {k r}, Fingers.empty.tree.get k = some r → r < Fingers.empty.allocated := by
    intro k r found
    cases found
  exact values_load ascending none_ fun e member => absurd member List.not_mem_nil

/-! ### Both ways -/

theorem ascending_clone {ps : List HashLocPair} : Ascending (ps.map HashLocPair.clone) ↔ Ascending ps :=
  List.pairwise_map

theorem dupBytes_unmarked {ps : List HashLocPair} (unmarked : ∀ p ∈ ps, p.dup = false) : dupBytes ps = 0 := by
  have none_ : ps.filter HashLocPair.dup = [] := by
    rw [List.filter_eq_nil_iff]
    intro h member
    rw [unmarked h member]
    exact Bool.false_ne_true
  rw [dupBytes, none_]
  rfl

theorem chunkRecord_inj {flags : UInt8} {ps qs : List HashLocPair} {d e : Int} (typed : ∀ p ∈ ps, p.Typed K)
    (typed' : ∀ p ∈ qs, p.Typed K) (fits : Fits K ps.length) (fits' : Fits K qs.length)
    (same : chunkRecord K flags ps d = chunkRecord K flags qs e) : records ps = records qs ∧ int d = int e := by
  have tail := List.append_cancel_left same
  obtain ⟨-, tail⟩ := List.append_inj tail (by rw [length_toBE32, length_toBE32])
  obtain ⟨sizes, tail⟩ := List.append_inj tail (by rw [length_toBE32, length_toBE32])
  have count : int ps.length = int qs.length := toBE32_inj sizes
  rw [length_of_fits fits, length_of_fits fits'] at count
  have lengths : (records ps).length = (records qs).length := by
    rw [length_records typed, length_records typed', Int.ofNat_inj.mp count]
  obtain ⟨entries, tail⟩ := List.append_inj tail lengths
  exact ⟨entries, toBE32_inj (List.append_cancel_right tail)⟩

theorem clones_of_records {ps qs : List HashLocPair} (typed : ∀ p ∈ ps, p.Typed K) (sound : ∀ p ∈ ps, ¬ p.Corrupt)
    (typed' : ∀ p ∈ qs, p.Typed K) (sound' : ∀ p ∈ qs, ¬ p.Corrupt) (same : records ps = records qs) :
    ps.map HashLocPair.clone = qs.map HashLocPair.clone := by
  have cuts {l : List HashLocPair} (typed : ∀ p ∈ l, p.Typed K) : cut K.bal (records l) = l.map HashLocPair.record := by
    apply cut_flatten
    · unfold Config.bal
      omega
    · intro b member
      obtain ⟨p, listed, rfl⟩ := List.mem_map.mp member
      exact (typed p listed).length_record
  have decoded {l : List HashLocPair} (typed : ∀ p ∈ l, p.Typed K) (sound : ∀ p ∈ l, ¬ p.Corrupt) :
      (l.map HashLocPair.record).map (HashLocPair.ofArray K) = (l.map HashLocPair.clone).map Except.ok := by
    rw [List.map_map, List.map_map]
    apply List.map_congr_left
    intro p member
    rw [Function.comp_apply, (typed p member).ofArray_record, if_neg (sound p member)]
    rfl
  have both := decoded typed sound
  rw [← cuts typed, same, cuts typed', decoded typed' sound'] at both
  exact (List.map_injective_iff.mpr (fun _ _ => Except.ok.inj) both).symm

/-- The decoded chunk has the entries, the flags and the count of the record. -/
def Restores (K : Config) (c : SparseDataChunk) : Prop :=
  ∃ raw c', (c.getBytes K).2 = .ok raw ∧ ofBytes K raw c.version = .ok c' ∧
    (∀ k, c'.ar.entry k = (c.ar.entry k).map HashLocPair.clone) ∧ c'.flags = c.flags ∧
    c'.doop = (c.getBytes K).1.doop

/-- Decoding and encoding again gives the same bytes. -/
def Reencodes (K : Config) (raw : Bytes) (version : UInt8) : Prop :=
  ∃ c', ofBytes K raw version = .ok c' ∧ (c'.getBytes K).2 = .ok raw

theorem restores_of_fits {c : SparseDataChunk} (modern : 2 ≤ c.version) (typed : ∀ p ∈ c.ar.values, p.Typed K)
    (sound : ∀ p ∈ c.ar.values, ¬ p.Corrupt) (keyed : Keyed c.ar) (few : c.ar.size ≤ K.maxElementsPerAr)
    (fits : Fits K c.ar.size) : Restores K c := by
  obtain ⟨c₁, encoded, counted⟩ := getBytes_eq modern typed sound few fits
  rw [← length_values] at fits
  obtain ⟨c', decoded, doop, flags, -, ar⟩ :=
    ofBytes_chunkRecord typed sound fits c.flags (int (dupBytes c.ar.values)) modern
  have values := values_load_empty (ascending_of_keyed keyed)
  have loaded := (load_empty c.ar.values).1
  refine ⟨_, c', by rw [encoded], decoded, fun k => ?_, flags, ?_⟩
  · apply Option.ext
    intro h
    rw [ar, entry_of_keyed loaded, values, List.mem_map, Option.map_eq_some_iff]
    constructor
    · rintro ⟨⟨p, member, rfl⟩, rfl⟩
      exact ⟨p, (entry_of_keyed keyed).mpr ⟨member, rfl⟩, rfl⟩
    · rintro ⟨p, stored, rfl⟩
      obtain ⟨member, pos⟩ := (entry_of_keyed keyed).mp stored
      exact ⟨⟨p, member, rfl⟩, pos⟩
  · rw [encoded, doop, counted, int_int]

theorem reencodes_iff {c : SparseDataChunk} (modern : 2 ≤ c.version) (typed : ∀ p ∈ c.ar.values, p.Typed K) {raw : Bytes}
    (done : (c.getBytes K).2 = .ok raw) :
    Reencodes K raw c.version ↔ int (dupBytes c.ar.values) = 0 ∧ Ascending c.ar.values := by
  obtain ⟨few, fits, sound⟩ := getBytes_ok modern typed done
  obtain ⟨c₁, encoded, -⟩ := getBytes_eq modern typed sound few fits
  rw [encoded] at done
  obtain rfl := Except.ok.inj done
  have fits' := fits
  rw [← length_values] at fits'
  obtain ⟨c', decoded, -, flags, version, ar⟩ :=
    ofBytes_chunkRecord typed sound fits' c.flags (int (dupBytes c.ar.values)) modern
  obtain ⟨keyed, origin⟩ := load_empty c.ar.values
  rw [← ar] at keyed origin
  rw [← version] at modern
  -- The entries of the decoded chunk are among those of the record.
  have typed' : ∀ p ∈ c'.ar.values, p.Typed K := by
    intro p member
    obtain ⟨q, listed, rfl⟩ := origin p member
    exact (typed q listed).clone
  have sound' : ∀ p ∈ c'.ar.values, ¬ p.Corrupt := by
    intro p member
    obtain ⟨q, listed, rfl⟩ := origin p member
    exact sound q listed
  have unmarked : ∀ p ∈ c'.ar.values, p.dup = false := by
    intro p member
    obtain ⟨q, -, rfl⟩ := origin p member
    rfl
  constructor
  · rintro ⟨c'', same, again⟩
    rw [decoded] at same
    obtain rfl := Except.ok.inj same
    obtain ⟨few', room, -⟩ := getBytes_ok modern typed' again
    obtain ⟨c₂, encoded', -⟩ := getBytes_eq modern typed' sound' few' room
    rw [encoded', dupBytes_unmarked unmarked, flags] at again
    rw [← length_values] at room
    obtain ⟨bytes, counts⟩ := chunkRecord_inj typed' typed room fits' (Except.ok.inj again)
    rw [int_int, int_int] at counts
    refine ⟨counts.symm, ?_⟩
    rw [← ascending_clone, ← clones_of_records typed' sound' typed sound bytes, ascending_clone]
    exact ascending_of_keyed keyed
  · rintro ⟨unmarked₀, ascending⟩
    have values : c'.ar.values = c.ar.values.map HashLocPair.clone := by rw [ar, values_load_empty ascending]
    have size : c'.ar.size = c.ar.size := by rw [← length_values, values, List.length_map, length_values]
    have bytes : records c'.ar.values = records c.ar.values := by
      rw [values, records, List.map_map, records]
      rfl
    obtain ⟨c₂, encoded', -⟩ := getBytes_eq modern typed' sound' (size ▸ few) (size ▸ fits)
    refine ⟨c', decoded, ?_⟩
    rw [encoded', dupBytes_unmarked unmarked, unmarked₀, flags, chunkRecord, chunkRecord, bytes, length_values,
      length_values, size]
    rfl

/-- A chunk with at most the maximal number of entries is restored exactly when its record is not longer
than an array can be. The bytes of a record come back exactly when its count of duplicates is zero and its
entries ascend, as they do where they are under their positions. With more entries nothing is written. -/
theorem record_roundTrips (K : Config) (c : SparseDataChunk) (modern : 2 ≤ c.version) :
    ((∀ p ∈ c.ar.values, p.Typed K) →
      ((∀ p ∈ c.ar.values, ¬ p.Corrupt) → Keyed c.ar → c.ar.size ≤ K.maxElementsPerAr →
        (Restores K c ↔ Fits K c.ar.size)) ∧
      (∀ raw, (c.getBytes K).2 = .ok raw →
        (Reencodes K raw c.version ↔ int (dupBytes c.ar.values) = 0 ∧ Ascending c.ar.values)) ∧
      (Keyed c.ar → Ascending c.ar.values)) ∧
    (K.maxElementsPerAr < c.ar.size → ∃ e, (c.getBytes K).2 = .error e) := by
  refine ⟨fun typed => ⟨fun sound keyed few => ⟨?_, ?_⟩, ?_, ascending_of_keyed⟩, fun many => ?_⟩
  · rintro ⟨raw, c', done, -⟩
    exact (getBytes_ok modern typed done).2.1
  · exact restores_of_fits modern typed sound keyed few
  · exact fun raw done => reencodes_iff modern typed done
  · rw [getBytes_eq_getBytes2 c modern]
    exact putRecord_many many _

def oneEntry (dup : Bool) : SparseDataChunk :=
  ⟨0, 0, 0, 0, 2, Fingers.empty.put 0 ⟨List.replicate 16 1, List.replicate 8 2, 100, 0, 0, 100, dup, false⟩⟩

theorem oneEntry_typed (dup : Bool) : ∀ p ∈ (oneEntry dup).ar.values, p.Typed ⟨16384, 16, 4, 4095⟩ := by
  intro p member
  rw [List.mem_singleton.mp member]
  exact ⟨rfl, rfl, rfl, rfl, rfl, rfl⟩

theorem oneEntry_sound (dup : Bool) : ∀ p ∈ (oneEntry dup).ar.values, ¬ p.Corrupt := by
  intro p member
  rw [List.mem_singleton.mp member]
  cases dup <;> decide

theorem record_roundTrips_oneEntry :
    Restores ⟨16384, 16, 4, 4095⟩ (oneEntry false) ∧
      ∀ raw, ((oneEntry false).getBytes ⟨16384, 16, 4, 4095⟩).2 = .ok raw → Reencodes ⟨16384, 16, 4, 4095⟩ raw 2 := by
  obtain ⟨restores, reencodes, ascending⟩ :=
    (record_roundTrips ⟨16384, 16, 4, 4095⟩ (oneEntry false) (by decide)).1 (oneEntry_typed false)
  have keyed : Keyed (oneEntry false).ar := by
    intro k h stored
    rw [oneEntry, Fingers.entry_put (Fingers.empty_wellFormed 0).allocated] at stored
    split at stored
    · rename_i here
      rw [here, ← Option.some.inj stored]
    · cases stored
  refine ⟨(restores (oneEntry_sound false) keyed (by decide)).mpr (by unfold Fits; decide), fun raw done => ?_⟩
  exact (reencodes raw done).mpr ⟨by decide, ascending keyed⟩

/-- The count of a duplicate entry is gone after one more round. -/
theorem reencodes_duplicate :
    ∃ raw, ((oneEntry true).getBytes ⟨16384, 16, 4, 4095⟩).2 = .ok raw ∧ raw.drop 49 = toBE32 100 ∧
      ¬ Reencodes ⟨16384, 16, 4, 4095⟩ raw 2 := by
  refine ⟨_, rfl, by decide +kernel, fun same => ?_⟩
  have zero := ((reencodes_iff (by decide) (oneEntry_typed true) rfl).mp same).1
  exact absurd zero (by decide)

end SparseDataChunk

end EncryptedDedup.SDFS
