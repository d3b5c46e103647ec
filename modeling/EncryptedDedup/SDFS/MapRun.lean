import EncryptedDedup.SDFS.MapSlots

/-!
# Runs of a map

The file of a map stands for a record or none in every slot, after any puts, removals and trims.
-/

namespace EncryptedDedup.SDFS.LongByteArrayMap

/-! ### Runs -/

inductive Op where
  | put (pos : Nat) (data : SparseDataChunk)
  | remove (pos : Nat)
  | trim (refCount : Bool) (pos : Nat) (len : Int)

variable (K : Config)

def step (m : LongByteArrayMap) : Op → LongByteArrayMap
  | .put pos data =>
    match put K m pos data with
    | .ok m' => m'
    | .error _ => m
  | .remove pos => remove K m pos
  | .trim refCount pos len => (trim K m refCount pos len).1

/-- A chunk has the version of the map, and entries with the lengths of their types. -/
def Op.Plain (version : UInt8) : Op → Prop
  | .put _ data => data.version = version ∧ ∀ p ∈ data.ar.values, p.Typed K
  | _ => True

/-- The maps that calls reach, from one whose file is created. -/
inductive Reached (version : UInt8) : LongByteArrayMap → Prop where
  | create : version ≤ 3 → Reached version (create version)
  | step {m : LongByteArrayMap} {op : Op} : Reached version m → op.Plain K version → Reached version (step K m op)

variable {K} {m : LongByteArrayMap} {slots : Nat → Option SparseDataChunk}

theorem holds_create (version : UInt8) : Holds K (create version) fun _ => none := by
  have short : (create version).db.length ≤ offset version := by
    unfold create offset
    split_ifs <;> simp
  constructor
  · intro i inside
    unfold slotPosition at inside
    have behind : offset (create version).version = offset version := rfl
    omega
  · exact fun _ _ => rfl

theorem put_holds (usable : K.Usable) (holds : Holds K m slots) {pos : Nat} {data : SparseDataChunk} {m' : LongByteArrayMap}
    (same : data.version = m.version) (typed : ∀ p ∈ data.ar.values, p.Typed K) (done : put K m pos data = .ok m') :
    m'.version = m.version ∧ ∃ r, Holds K m' (Function.update slots (pos / K.chunkLength.toNat) r) := by
  unfold put at done
  obtain ⟨raw, encoded, done⟩ := bind_ok done
  obtain ⟨r, piece⟩ := piece_of_getBytes usable typed encoded
  rw [same] at piece
  rw [← Except.ok.inj done]
  exact ⟨rfl, r, holds.write piece _⟩

def refsOf (slots : Nat → Option SparseDataChunk) (is : List Nat) : List HashLocPair :=
  is.flatMap fun i => ((slots i).map fun ck => ck.ar.values).getD []

def clearedFrom (slots : Nat → Option SparseDataChunk) (i n : Nat) : Nat → Option SparseDataChunk :=
  fun k => if i ≤ k ∧ k < i + n then none else slots k

theorem trimLoop_spec (holds : Holds K m slots) (refCount : Bool) (n i : Nat) (refs : List HashLocPair) :
    ∃ m', trimLoop K refCount n (slotPosition K m i) m refs =
        (m', refs ++ if refCount then refsOf slots (List.range' i n) else []) ∧
      m'.version = m.version ∧ Holds K m' (clearedFrom slots i n) := by
  induction n generalizing m slots i refs with
  | zero =>
    have same : clearedFrom slots i 0 = slots := by
      funext k
      exact if_neg (by omega)
    refine ⟨m, ?_, rfl, by rwa [same]⟩
    cases refCount <;> simp [trimLoop, refsOf]
  | succ n ih =>
    have written := holds.write .free i
    have later := slotPosition_succ (K := K) (m := m) i
    have rest : clearedFrom (Function.update slots i none) (i + 1) n = clearedFrom slots i (n + 1) := by
      funext k
      unfold clearedFrom
      by_cases here : k = i
      · subst here
        simp
      · rw [Function.update_of_ne here]
        split_ifs <;> first | rfl | omega
    have others : refsOf (Function.update slots i none) (List.range' (i + 1) n) = refsOf slots (List.range' (i + 1) n) := by
      unfold refsOf
      refine List.flatMap_congr fun k member => ?_
      have after := (List.mem_range'_1.mp member).1
      rw [Function.update_of_ne (by omega)]
    have turn (refs : List HashLocPair) := ih written (i + 1) refs
    rw [rest, others] at turn
    have own : refsOf slots (List.range' i (n + 1)) =
        ((slots i).map fun ck => ck.ar.values).getD [] ++ refsOf slots (List.range' (i + 1) n) := by
      rw [List.range'_succ, refsOf, List.flatMap_cons]
      rfl
    have read : (slots i = none ∧ readInto (zeros (arrayLength K m.version)) m.db (slotPosition K m i) = free K m.version) ∨
        ∃ ck, slots i = some ck ∧
          readInto (zeros (arrayLength K m.version)) m.db (slotPosition K m i) ≠ free K m.version ∧
          SparseDataChunk.ofBytes K (readInto (zeros (arrayLength K m.version)) m.db (slotPosition K m i)) m.version =
            .ok ck := by
      by_cases inside : slotPosition K m i < m.db.length
      · exact holds.readSlot inside (length_zeros _)
      · exact .inl ⟨holds.outside i (Nat.not_lt.mp inside), readInto_end (Nat.not_lt.mp inside)⟩
    unfold trimLoop
    dsimp only
    rw [← later, own]
    rcases read with ⟨empty, blank⟩ | ⟨ck, held, taken, decodes⟩
    · rw [if_neg fun both => both.2 blank, empty]
      exact turn refs
    · cases refCount with
      | false =>
        rw [if_neg fun both => Bool.false_ne_true both.1]
        exact turn refs
      | true =>
        obtain ⟨m', done, version, holds'⟩ := turn (refs ++ ck.ar.values)
        rw [if_pos ⟨rfl, taken⟩, decodes, held]
        refine ⟨m', ?_, version, holds'⟩
        simp only [if_true, Option.map_some, Option.getD_some] at done ⊢
        rw [← List.append_assoc]
        exact done

/-- The slots that `trim` clears: from the first chunk that starts in the range up to the one that ends behind it. -/
def firstTrimmed (K : Config) (pos : Nat) : Int := ⌈Double.quotient pos K.chunkLength⌉

def trimmedCount (K : Config) (pos : Nat) (len : Int) : Nat :=
  (⌊Double.quotient (pos + len) K.chunkLength⌋ - firstTrimmed K pos).toNat

theorem trim_spec (holds : Holds K m slots) (usable : K.Usable) (refCount : Bool) (pos : Nat) (len : Int) :
    ∃ m', trim K m refCount pos len =
        (m', if refCount then refsOf slots (List.range' (firstTrimmed K pos).toNat (trimmedCount K pos len)) else []) ∧
      m'.version = m.version ∧ Holds K m' (clearedFrom slots (firstTrimmed K pos).toNat (trimmedCount K pos len)) := by
  have positive := arrayLength_pos usable m.version
  obtain ⟨s, start⟩ : ∃ s : Nat, firstTrimmed K pos = s :=
    ⟨_, (Int.toNat_of_nonneg (Int.ceil_nonneg (Double.quotient_nonneg (Int.natCast_nonneg pos) usable.chunk.le))).symm⟩
  have turns : trimmedCount K pos len = (⌊Double.quotient (pos + len) K.chunkLength⌋ - s).toNat := by
    rw [trimmedCount, start]
  have position : ((s : Int) * arrayLength K m.version + offset m.version).toNat = slotPosition K m s := by
    rw [slotPosition]
    omega
  obtain ⟨m', done, version, holds'⟩ := trimLoop_spec holds refCount (trimmedCount K pos len) s []
  rw [List.nil_append] at done
  rw [start, Int.toNat_natCast]
  refine ⟨m', ?_, version, holds'⟩
  unfold trim
  rw [← firstTrimmed, start]
  dsimp only
  split
  · rename_i before
    have less : ⌊Double.quotient (pos + len) K.chunkLength⌋ ≤ (s : Int) := by
      by_contra more
      have wide := Int.mul_lt_mul_of_pos_right (not_le.mp more) (Int.ofNat_lt.mpr positive)
      omega
    have none_left : trimmedCount K pos len = 0 := by omega
    rw [none_left] at done ⊢
    exact done
  · rw [position, ← turns]
    exact done

theorem step_holds (holds : Holds K m slots) (usable : K.Usable) {op : Op} (plain : op.Plain K m.version) :
    (step K m op).version = m.version ∧ ∃ slots', Holds K (step K m op) slots' := by
  cases op with
  | put pos data =>
    cases done : put K m pos data with
    | error e =>
      simp only [step, done]
      exact ⟨trivial, slots, holds⟩
    | ok m' =>
      obtain ⟨version, r, holds'⟩ := put_holds usable holds plain.1 plain.2 done
      simp only [step, done]
      exact ⟨version, _, holds'⟩
  | remove pos => exact ⟨rfl, _, holds.write .free _⟩
  | trim refCount pos len =>
    obtain ⟨m', done, version, holds'⟩ := trim_spec holds usable refCount pos len
    simp only [step, done]
    exact ⟨version, _, holds'⟩

theorem reached_holds (usable : K.Usable) {version : UInt8} (reached : Reached K version m) :
    m.version = version ∧ ∃ slots, Holds K m slots := by
  induction reached with
  | create _ => exact ⟨rfl, _, holds_create version⟩
  | step _ plain ih =>
    obtain ⟨same, slots, holds⟩ := ih
    obtain ⟨kept, holds'⟩ := step_holds holds usable (same ▸ plain)
    exact ⟨kept.trans same, holds'⟩

end EncryptedDedup.SDFS.LongByteArrayMap
