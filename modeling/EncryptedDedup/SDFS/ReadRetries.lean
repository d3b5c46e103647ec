import EncryptedDedup.SDFS.ChannelRetries

/-!
# Reads that are made again

A call of `read` that is made again fills the whole range, and the call that it interrupted goes on behind it.
-/

namespace EncryptedDedup.SDFS.DedupFileChannel

variable {C : ChunkLength} {file : DedupFile C} {buf : ByteBuffer} {blockDev : Bool} {bufPos siz filePos : Int}

/-! ### The bytes of a range -/

def fileBytes (file : DedupFile C) (c : Int) (n : Nat) : Bytes :=
  (List.range n).map fun i : Nat => file.writeBuffers.byte (c + i)

@[simp] theorem length_fileBytes (file : DedupFile C) (c : Int) (n : Nat) : (fileBytes file c n).length = n := by
  simp [fileBytes]

theorem fileBytes_add (file : DedupFile C) (c : Int) (m n : Nat) :
    fileBytes file c (m + n) = fileBytes file c m ++ fileBytes file (c + m) n := by
  unfold fileBytes
  rw [List.range_add, List.map_append, List.map_map]
  congr 1
  refine List.map_congr_left fun i _ => ?_
  rw [Function.comp_apply, Nat.cast_add, Int.add_assoc]

theorem byteAt_fileBytes (file : DedupFile C) (c : Int) {n : Nat} {i : Int} (low : 0 ≤ i) (high : i < n) :
    byteAt (fileBytes file c n) i = bytes file (c + i) := by
  rw [byteAt, if_pos low, fileBytes, List.getElem?_map, List.getElem?_range (by omega), Option.map_some,
    Int.toNat_of_nonneg low]
  rfl

def pieceAt (C : ChunkLength) (c b : Int) : Nat := (pieceLength C (c - getChuckPosition C c) b).toNat

def piecesOf (C : ChunkLength) (c b : Int) : Nat := if 0 < b then ((c + b - 1) / C.val - c / C.val + 1).toNat else 0

theorem pieceAt_bounds (C : ChunkLength) (c : Int) {b : Int} (left : 0 < b) :
    0 < pieceAt C c b ∧ (pieceAt C c b : Int) ≤ b := by
  obtain ⟨-, below⟩ := startPos_eq C c
  obtain ⟨positive, le, -⟩ := pieceLength_bounds below left
  unfold pieceAt
  omega

theorem chuckPosition_eq (C : ChunkLength) {c : Int} (low : 0 ≤ c) : getChuckPosition C c = c / C.val * C.val := by
  rw [getChuckPosition, Int.tdiv_eq_ediv_of_nonneg low]

theorem piecesOf_eq (C : ChunkLength) {c b : Int} (low : 0 ≤ c) (left : 0 < b) :
    piecesOf C c b = piecesOf C (c + pieceAt C c b) (b - pieceAt C c b) + 1 := by
  have size := C.pos
  have split := Int.emod_add_mul_ediv c C.val
  have high := Int.emod_lt_of_pos c (b := C.val) (by omega)
  have nonneg := Int.emod_nonneg c (b := C.val) (by omega)
  rw [Int.mul_comm] at split
  have start : c - getChuckPosition C c = c % C.val := by
    rw [chuckPosition_eq C low]
    omega
  unfold pieceAt pieceLength
  rw [start]
  unfold piecesOf
  rw [if_pos left]
  split
  · rename_i last
    -- The range ends in the chunk that it starts in.
    have same : (c + b - 1) / C.val = c / C.val := by
      apply le_antisymm
      · rw [← Int.lt_add_one_iff, Int.ediv_lt_iff_lt_mul (by omega), add_mul, one_mul]
        omega
      · exact Int.ediv_le_ediv (by omega) (by omega)
    rw [if_neg (by omega), same]
    omega
  · rename_i more
    have next : (c + (C.val - c % C.val)) = (c / C.val + 1) * C.val := by
      rw [add_mul, one_mul]
      omega
    have here : ((C.val : Int) - c % C.val).toNat = C.val - c % C.val := Int.toNat_of_nonneg (by omega)
    rw [here, next, Int.mul_ediv_cancel _ (by omega)]
    by_cases done : b = C.val - c % C.val
    · have last : (c + b - 1) / C.val = c / C.val := by
        apply le_antisymm
        · rw [← Int.lt_add_one_iff, Int.ediv_lt_iff_lt_mul (by omega)]
          omega
        · exact Int.ediv_le_ediv (by omega) (by omega)
      rw [if_neg (by omega), last]
      omega
    · have rest : (c / C.val + 1) * C.val + (b - (C.val - c % C.val)) - 1 = c + b - 1 := by omega
      have further : c / C.val + 1 ≤ (c + b - 1) / C.val := by
        rw [Int.le_ediv_iff_mul_le (by omega)]
        omega
      rw [if_pos (by omega), rest]
      omega

theorem readBody_eq (file : DedupFile C) {s : Reading} (left : 0 < s.bytesLeft) (low : 0 ≤ s.currentLocation)
    (high : s.currentLocation + s.bytesLeft < 2 ^ 63) (valid : s.buf.position ≤ s.buf.array.length) :
    ∃ t, readBody file s = some t ∧
      t.buf = filled s.buf (fileBytes file s.currentLocation (pieceAt C s.currentLocation s.bytesLeft)) ∧
      t.currentLocation = s.currentLocation + pieceAt C s.currentLocation s.bytesLeft ∧
      t.bytesLeft = s.bytesLeft - pieceAt C s.currentLocation s.bytesLeft ∧
      t.read = s.read + pieceAt C s.currentLocation s.bytesLeft ∧
      t.returned = decide (t.currentLocation = file.length) := by
  obtain ⟨t, moved⟩ := readBody_isSome file low left valid
  obtain ⟨p, step⟩ := readBody_step left (by omega) high valid moved
  have size : p.bytes.length = pieceAt C s.currentLocation s.bytesLeft := by
    obtain ⟨start, -⟩ := startPos_eq C s.currentLocation
    have spent := step.bytesLeft
    unfold readBody at moved
    dsimp only at moved
    rw [start] at moved
    obtain ⟨rb, -, moved⟩ := Option.bind_eq_some_iff.mp moved
    obtain ⟨buf, -, moved⟩ := Option.bind_eq_some_iff.mp moved
    rw [← Option.some.inj moved] at spent
    unfold pieceAt
    dsimp only at spent
    omega
  have same : p.bytes = fileBytes file s.currentLocation (pieceAt C s.currentLocation s.bytesLeft) := by
    apply byteAt_ext
    intro i
    by_cases inside : 0 ≤ i ∧ i < p.bytes.length
    · rw [step.found i inside.1 inside.2, byteAt_fileBytes file _ inside.1 (size ▸ inside.2)]
    · rw [byteAt_eq_none inside, byteAt_eq_none]
      rwa [length_fileBytes, ← size]
  rw [← size]
  exact ⟨t, moved, by rw [step.buf, size, same], step.currentLocation, step.bytesLeft, step.read, step.returned⟩

/-! ### Calls without an interruption -/

/-- `n` bytes of the file are read from `filePos` on, of which `j` are done. -/
structure At (file : DedupFile C) (filePos : Int) (n j : Nat) (t : ReadTry C) : Prop where
  file : t.file = file
  location : t.reading.currentLocation = filePos + j
  left : t.reading.bytesLeft = n - j
  read : t.reading.read = j
  le : j ≤ n
  goes : j < n → t.reading.returned = false

structure InFile (file : DedupFile C) (filePos : Int) (n : Nat) : Prop where
  low : 0 ≤ filePos
  high : filePos + n < 2 ^ 63
  ends : filePos + n ≤ file.length

variable {n j : Nat} {t : ReadTry C}
  {again : DedupFile C → ByteBuffer → Attempts → Option (DedupFile C × Int × ByteBuffer × Attempts)}

/-- What is left of the attempts behind so many successful ones. -/
def behind : Attempts → Nat → Attempts
  | attempts, 0 => attempts
  | attempts, k + 1 => behind (attempt attempts).2 k

theorem behind_le (attempts : Attempts) (k : Nat) : (behind attempts k).length ≤ attempts.length := by
  induction k generalizing attempts with
  | zero => exact Nat.le_refl _
  | succ k ih => exact (ih _).trans (attempt_le attempts)

theorem At.guard (here : At file filePos n j t) (more : j < n) : (readTryLoop again).guard t = true := by
  have left := here.left
  refine Bool.and_eq_true_iff.mpr ⟨decide_eq_true (by omega), ?_⟩
  rw [here.goes more]
  rfl

theorem At.stopped (here : At file filePos n n t) : (readTryLoop again).guard t = false := by
  have left := here.left
  exact Bool.and_eq_false_iff.mpr (.inl (decide_eq_false (by omega)))

variable (again) in
theorem At.next (inFile : InFile file filePos n) (here : At file filePos n j t) (more : j < n) {rest : Attempts}
    (tried : attempt t.attempts = (none, rest)) (valid : t.reading.buf.position ≤ t.reading.buf.array.length) :
    ∃ u, readTryBody again t = some u ∧ At file filePos n (j + pieceAt C (filePos + j) (n - j)) u ∧
      u.reading.buf = filled t.reading.buf (fileBytes file (filePos + j) (pieceAt C (filePos + j) (n - j))) ∧
      u.attempts = rest := by
  obtain ⟨low, high, ends⟩ := inFile
  have location := here.location
  have left := here.left
  have read := here.read
  obtain ⟨positive, le⟩ := pieceAt_bounds C (filePos + j) (b := n - j) (by omega)
  obtain ⟨s, moved, filled, location', left', read', returned⟩ :=
    readBody_eq t.file (s := t.reading) (by omega) (by omega) (by omega) valid
  rw [location, left] at filled location' left'
  rw [location, left] at read'
  unfold readTryBody
  rw [tried, moved]
  refine ⟨⟨t.file, s, rest⟩, rfl, ⟨here.file, ?_, ?_, ?_, ?_, ?_⟩, ?_, rfl⟩
  · dsimp only
    omega
  · dsimp only
    omega
  · dsimp only
    omega
  · omega
  · intro inside
    dsimp only
    rw [returned, here.file]
    exact decide_eq_false (by omega)
  · rw [← here.file]
    exact filled

theorem piecesOf_next (C : ChunkLength) (low : 0 ≤ filePos) (more : j < n) :
    piecesOf C (filePos + j) (n - j) =
      piecesOf C (filePos + (j + pieceAt C (filePos + j) (n - j) : Nat)) (n - (j + pieceAt C (filePos + j) (n - j) : Nat)) + 1 := by
  rw [piecesOf_eq C (by omega) (by omega)]
  congr 2 <;> push_cast <;> omega

theorem At.ended (here : At file filePos n j t) (all : ¬ j < n) (fuel : Nat) :
    ∃ u, (readTryLoop again).run fuel t = .finished u ∧ At file filePos n n u ∧
      u.reading.buf = filled t.reading.buf (fileBytes file (filePos + j) (n - j)) ∧
      u.attempts = behind t.attempts (piecesOf C (filePos + j) (n - j)) := by
  have same : j = n := by
    have le := here.le
    omega
  subst same
  have none_left : piecesOf C (filePos + j) (j - j) = 0 := if_neg (by omega)
  refine ⟨t, (readTryLoop again).run_stopped here.stopped fuel, here, ?_, ?_⟩
  · rw [Nat.sub_self, fileBytes, List.range_zero, List.map_nil, filled_nil]
  · rw [none_left]
    rfl

variable (again) in
theorem At.finishes (inFile : InFile file filePos n) (here : At file filePos n j t)
    (quiet : strikes t.attempts (piecesOf C (filePos + j) (n - j)) = false)
    (valid : t.reading.buf.position ≤ t.reading.buf.array.length) {fuel : Nat} (enough : n - j ≤ fuel) :
    ∃ u, (readTryLoop again).run fuel t = .finished u ∧ At file filePos n n u ∧
      u.reading.buf = filled t.reading.buf (fileBytes file (filePos + j) (n - j)) ∧
      u.attempts = behind t.attempts (piecesOf C (filePos + j) (n - j)) := by
  induction fuel generalizing j t with
  | zero => exact here.ended (by omega) 0
  | succ fuel ih =>
    by_cases more : j < n
    · obtain ⟨positive, le⟩ := pieceAt_bounds C (filePos + j) (b := n - j) (by omega)
      have count := piecesOf_next C inFile.low more
      rw [count, strikes, Bool.or_eq_false_iff] at quiet
      obtain ⟨calm, quiet⟩ := quiet
      have tried : attempt t.attempts = (none, (attempt t.attempts).2) :=
        Prod.ext (Option.not_isSome_iff_eq_none.mp (by rw [calm]; exact Bool.false_ne_true)) rfl
      obtain ⟨u, moved, there, filled, attempts⟩ := here.next again inFile more tried valid
      obtain ⟨v, finished, ended, last, rest⟩ := ih there (by rw [attempts]; exact quiet) (filled ▸ filled_valid valid _)
        (by omega)
      refine ⟨v, ?_, ended, ?_, ?_⟩
      · rw [(readTryLoop again).run_next (here.guard more) moved]
        exact finished
      · have split : n - j = pieceAt C (filePos + j) (n - j) + (n - (j + pieceAt C (filePos + j) (n - j))) := by omega
        rw [last, filled, filled_filled valid, split, fileBytes_add, Nat.cast_add, Int.add_assoc]
      · rw [rest, attempts, count]
        rfl
    · exact here.ended more _

/-! ### Calls with an interruption -/

theorem byteAt_filled {buf : ByteBuffer} (valid : buf.position ≤ buf.array.length) (b : Bytes) :
    byteAt (filled buf b).array = written (byteAt buf.array) ⟨b.take buf.remaining, buf.position⟩ := by
  have room : (b.take buf.remaining).length ≤ buf.remaining := List.length_take_le _ _
  unfold ByteBuffer.remaining at room
  exact byteAt_overwrite_eq (by unfold ByteBuffer.remaining; omega)

/-- Writes to an array of `room` bytes that fill the range of `n` bytes from `first` on, whatever was there, and leave
what is before it. The position is behind the range. -/
structure Fills (file : DedupFile C) (filePos : Int) (n first room : Nat) (ws : List Write) (position : Nat) : Prop where
  before : ∀ f (x : Int), x < first → overlay f ws x = f x
  range : ∀ f x, (first : Int) ≤ x → x < min (first + n) room → overlay f ws x = bytes file (filePos + (x - first))
  low : min (first + n) room ≤ position
  high : position ≤ room

/-- The byte at a position does not depend on what was there. -/
def Fixes (ws : List Write) (x : Int) : Prop := ∃ v, ∀ f, overlay f ws x = some v

/-- What a call inside another one does, with less than `bound` attempts. -/
def Inner (file : DedupFile C) (filePos : Int) (n first room bound : Nat)
    (again : DedupFile C → ByteBuffer → Attempts → Option (DedupFile C × Int × ByteBuffer × Attempts)) : Prop :=
  ∀ attempts : Attempts, attempts.length < bound → ∃ (ws : List Write) (position : Nat) (rest : Attempts),
    rest.length ≤ attempts.length ∧ Fills file filePos n first room ws position ∧
    (position = min (first + n) room ∨ (first + n < room → Fixes ws (first + n : Nat))) ∧
    ∀ buf : ByteBuffer, buf.array.length = room → ∃ a, again file buf attempts = some (file, (n : Int), ⟨a, position⟩, rest) ∧
      a.length = room ∧ byteAt a = overlay (byteAt buf.array) ws

variable {first room : Nat}

theorem Fills.cons {w : Write} {ws : List Write} {position : Nat} (fills : Fills file filePos n first room ws position)
    (behind : (first : Int) ≤ w.pos) : Fills file filePos n first room (w :: ws) position where
  before f x less := by
    rw [overlay_cons, fills.before _ x less, written, patch, if_neg (mt Write.covers_iff.mp (by omega))]
  range f x low high := by rw [overlay_cons, fills.range _ x low high]
  low := fills.low
  high := fills.high

theorem Fixes.cons {w : Write} {ws : List Write} {x : Int} (fixes : Fixes ws x) : Fixes (w :: ws) x := by
  obtain ⟨v, fixed⟩ := fixes
  exact ⟨v, fun f => by rw [overlay_cons, fixed]⟩

theorem Fills.append {ws vs : List Write} {p position : Nat} (start : Fills file filePos n first room ws p)
    (fills : Fills file filePos n first room vs position) : Fills file filePos n first room (ws ++ vs) position where
  before f x less := by rw [overlay_append, fills.before _ x less, start.before f x less]
  range f x low high := by rw [overlay_append, fills.range _ x low high]
  low := fills.low
  high := fills.high

theorem Fixes.append {ws vs : List Write} {x : Int} (fixes : Fixes vs x) : Fixes (ws ++ vs) x := by
  obtain ⟨v, fixed⟩ := fixes
  exact ⟨v, fun f => by rw [overlay_append, fixed]⟩

theorem Fills.concat {ws : List Write} {p : Nat} (fills : Fills file filePos n first room ws p) (first_le : first ≤ room)
    (b : Bytes) : Fills file filePos n first room (ws ++ [⟨b.take (room - p), p⟩]) (p + (b.take (room - p)).length) where
  before f x less := by
    have low := fills.low
    rw [overlay_append, overlay_cons, overlay_nil, written, patch,
      if_neg (mt Write.covers_iff.mp (by dsimp only; omega)), fills.before f x less]
  range f x least most := by
    have low := fills.low
    rw [overlay_append, overlay_cons, overlay_nil, written, patch,
      if_neg (mt Write.covers_iff.mp (by dsimp only; omega)), fills.range f x least most]
  low := fills.low.trans (Nat.le_add_right _ _)
  high := by
    have high := fills.high
    have short := List.length_take_le (room - p) b
    omega

theorem Fixes.concat {ws : List Write} {p x : Nat} (reached : x ≤ p) (fixes : p = x ∨ Fixes ws x) {b : Bytes}
    (inside : x < room) (positive : 0 < b.length) : Fixes (ws ++ [⟨b.take (room - p), p⟩]) x := by
  by_cases here : p = x
  · subst here
    have covers : (⟨b.take (room - p), p⟩ : Write).covers p = true := by
      rw [Write.covers_iff, List.length_take]
      dsimp only
      omega
    refine ⟨(⟨b.take (room - p), p⟩ : Write).value p, fun f => ?_⟩
    rw [overlay_append, overlay_cons, overlay_nil, written, patch, if_pos covers]
  · obtain ⟨v, fixed⟩ := fixes.resolve_left here
    refine ⟨v, fun f => ?_⟩
    rw [overlay_append, overlay_cons, overlay_nil, written, patch,
      if_neg (mt Write.covers_iff.mp (by dsimp only; omega)), fixed]

/-- From all states with `j` bytes done, these attempts and the caller's buffer at `p`, the loop makes the writes. -/
def Makes (file : DedupFile C) (filePos : Int) (n room : Nat)
    (again : DedupFile C → ByteBuffer → Attempts → Option (DedupFile C × Int × ByteBuffer × Attempts)) (fuel j p : Nat)
    (attempts : Attempts) (ws : List Write) (position : Nat) (rest : Attempts) : Prop :=
  ∀ t, At file filePos n j t → t.attempts = attempts → t.reading.buf.position = p → t.reading.buf.array.length = room →
    ∃ u, (readTryLoop again).run fuel t = .finished u ∧ At file filePos n n u ∧ u.attempts = rest ∧
      u.reading.buf.position = position ∧ u.reading.buf.array.length = room ∧
      byteAt u.reading.buf.array = overlay (byteAt t.reading.buf.array) ws

theorem length_filled {buf : ByteBuffer} (valid : buf.position ≤ buf.array.length) (b : Bytes) :
    (filled buf b).array.length = buf.array.length := by
  have room : (b.take buf.remaining).length ≤ buf.remaining := List.length_take_le _ _
  unfold ByteBuffer.remaining at room
  exact length_overwrite (by unfold ByteBuffer.remaining; omega)

variable (again) in
theorem makes_quiet (inFile : InFile file filePos n) {fuel j p : Nat} {attempts : Attempts} (within : p ≤ room)
    (quiet : strikes attempts (piecesOf C (filePos + j) (n - j)) = false) (enough : n - j ≤ fuel) :
    Makes file filePos n room again fuel j p attempts [⟨(fileBytes file (filePos + j) (n - j)).take (room - p), p⟩]
      (p + ((fileBytes file (filePos + j) (n - j)).take (room - p)).length)
      (behind attempts (piecesOf C (filePos + j) (n - j))) := by
  intro t here same at_p length
  subst same at_p length
  obtain ⟨u, finished, ended, last, rest⟩ := here.finishes again inFile quiet within enough
  refine ⟨u, finished, ended, rest, ?_, ?_, ?_⟩
  · rw [last]
    rfl
  · rw [last, length_filled within]
  · rw [last, byteAt_filled within, overlay_cons, overlay_nil]
    rfl

theorem Makes.piece (inFile : InFile file filePos n) {fuel j p : Nat} {attempts rest : Attempts} (more : j < n)
    (within : p ≤ room) (tried : attempt attempts = (none, rest)) {ws : List Write} {position : Nat} {rest' : Attempts}
    (makes : Makes file filePos n room again fuel (j + pieceAt C (filePos + j) (n - j))
      (p + ((fileBytes file (filePos + j) (pieceAt C (filePos + j) (n - j))).take (room - p)).length) rest ws position rest') :
    Makes file filePos n room again (fuel + 1) j p attempts
      (⟨(fileBytes file (filePos + j) (pieceAt C (filePos + j) (n - j))).take (room - p), p⟩ :: ws) position rest' := by
  intro t here same at_p length
  subst same at_p length
  obtain ⟨u, moved, there, filled, left⟩ := here.next again inFile more tried within
  obtain ⟨v, finished, ended, rest_eq, at_, length, written⟩ := makes u there left (by rw [filled]; rfl)
    (by rw [filled, length_filled within])
  refine ⟨v, ?_, ended, rest_eq, at_, length, ?_⟩
  · rw [(readTryLoop again).run_next (here.guard more) moved]
    exact finished
  · rw [written, filled, byteAt_filled within, overlay_cons]
    rfl

theorem Makes.call (inFile : InFile file filePos n) {fuel j p q : Nat} {attempts tail rest : Attempts} (more : j < n)
    {fault : Fault} (tried : attempt attempts = (some fault, tail)) {ws vs : List Write} {position : Nat} {rest' : Attempts}
    (inner : ∀ buf : ByteBuffer, buf.array.length = room → ∃ a, again file buf tail = some (file, (n : Int), ⟨a, q⟩, rest) ∧
      a.length = room ∧ byteAt a = overlay (byteAt buf.array) ws)
    (makes : Makes file filePos n room again fuel j q rest vs position rest') :
    Makes file filePos n room again (fuel + 1) j p attempts (ws ++ vs) position rest' := by
  intro t here same at_p length
  subst same
  obtain ⟨a, called, room_eq, bytes_eq⟩ := inner t.reading.buf length
  have location := here.location
  have ends := inFile.ends
  have moved : readTryBody again t = some
      ⟨file, { t.reading with buf := ⟨a, q⟩, returned := decide (t.reading.currentLocation = file.length) }, rest⟩ := by
    unfold readTryBody
    rw [tried, here.file]
    dsimp only
    rw [called]
    rfl
  have there : At file filePos n j
      ⟨file, { t.reading with buf := ⟨a, q⟩, returned := decide (t.reading.currentLocation = file.length) }, rest⟩ :=
    ⟨rfl, here.location, here.left, here.read, here.le, fun _ => decide_eq_false (by omega)⟩
  obtain ⟨v, finished, ended, rest_eq, at_, length, written⟩ := makes _ there rfl rfl room_eq
  refine ⟨v, ?_, ended, rest_eq, at_, length, ?_⟩
  · rw [(readTryLoop again).run_next (here.guard more) moved]
    exact finished
  · rw [written, overlay_append, ← bytes_eq]

/-- The loop of an interrupted call fills the range, and writes behind it where there is room. -/
theorem makes_interrupted (inFile : InFile file filePos n) (first_le : first ≤ room) {bound : Nat}
    (inner : Inner file filePos n first room bound again) (fuel : Nat) {j p : Nat} {attempts : Attempts}
    (struck : strikes attempts (piecesOf C (filePos + j) (n - j)) = true) (le : j ≤ n) (low : first ≤ p) (within : p ≤ room)
    (few : attempts.length ≤ bound) (enough : n - j + attempts.length ≤ fuel) :
    ∃ (ws : List Write) (position : Nat) (rest : Attempts), rest.length ≤ attempts.length ∧
      Fills file filePos n first room ws position ∧ (first + n < room → Fixes ws (first + n : Nat)) ∧
      Makes file filePos n room again fuel j p attempts ws position rest := by
  have more : j < n := by
    by_contra all
    rw [piecesOf, if_neg (by omega)] at struck
    cases struck
  induction fuel generalizing j p attempts with
  | zero => omega
  | succ fuel ih =>
    obtain ⟨positive, piece_le⟩ := pieceAt_bounds C (filePos + j) (b := n - j) (by omega)
    rcases tried : attempt attempts with ⟨_ | fault, tail⟩
    · have shorter := attempt_le attempts
      rw [tried] at shorter
      rw [piecesOf_next C inFile.low more, strikes, tried, Option.isSome_none, Bool.false_or] at struck
      have short := List.length_take_le (room - p) (fileBytes file (filePos + j) (pieceAt C (filePos + j) (n - j)))
      have further : j + pieceAt C (filePos + j) (n - j) < n := by
        by_contra all
        rw [piecesOf, if_neg (by omega)] at struck
        cases struck
      obtain ⟨ws, last, rest, fewer, fills, fixes, makes⟩ := @ih (j + pieceAt C (filePos + j) (n - j))
        (p + ((fileBytes file (filePos + j) (pieceAt C (filePos + j) (n - j))).take (room - p)).length) tail
        struck (by omega) (by omega) (by omega) (by dsimp only at shorter; omega)
        (by dsimp only at shorter; omega) further
      exact ⟨_, last, rest, fewer.trans shorter, fills.cons (by dsimp only; omega), fun inside => (fixes inside).cons,
        makes.piece inFile more within tried⟩
    · have shorter := attempt_lt (congrArg Prod.fst tried)
      rw [tried] at shorter
      dsimp only at shorter
      obtain ⟨ws, q, rest, fewer, fills, reached, called⟩ := inner tail (by omega)
      have behind := fills.low
      cases later : strikes rest (piecesOf C (filePos + j) (n - j)) with
      | true =>
        obtain ⟨vs, last, rest', fewer', fills', fixes', makes⟩ := ih later le (p := q) (by omega)
          fills.high (by omega) (by omega) more
        exact ⟨_, last, rest', by omega, fills.append fills', fun inside => (fixes' inside).append,
          makes.call inFile more tried called⟩
      | false =>
        have size := length_fileBytes file (filePos + j) (n - j)
        refine ⟨_, _, _, ?_, fills.concat first_le (fileBytes file (filePos + j) (n - j)), fun inside => ?_,
          (makes_quiet again inFile fills.high later (by omega)).call inFile more tried called⟩
        · have left := behind_le rest (piecesOf C (filePos + j) (n - j))
          omega
        · have at_end : min (first + n) room = first + n := Nat.min_eq_left inside.le
          rw [at_end] at reached behind
          exact Fixes.concat (by exact_mod_cast behind) (reached.imp_right fun fixes => fixes inside) inside (by omega)

/-! ### Whole calls -/

/-- A block device is made longer by a read. -/
def extended (blockDev : Bool) (file : DedupFile C) (siz filePos : Int) : DedupFile C :=
  { file with length := if blockDev = true ∧ filePos + siz > file.length then filePos + siz else file.length }

/-- How many bytes there are to read, if the number is positive. -/
def readable (blockDev : Bool) (file : DedupFile C) (siz filePos : Int) : Int :=
  if blockDev then siz else min siz (file.length - filePos)

/-- The counts are `int`s, and the range consists of positions of a file. -/
structure Placed (siz filePos : Int) : Prop where
  least : -2 ^ 31 ≤ siz
  small : siz < 2 ^ 31
  low : 0 ≤ filePos
  high : filePos + siz < 2 ^ 63

theorem readIn_eq (placed : Placed siz filePos) (calls : Nat) (file : DedupFile C) {buf : ByteBuffer}
    (first : 0 ≤ bufPos) (last : bufPos ≤ buf.array.length) (attempts : Attempts)
    (before : ¬ (file.length ≤ filePos ∧ blockDev = false)) :
    readIn blockDev bufPos siz filePos (calls + 1) file buf attempts =
      ((readTryLoop (readIn blockDev bufPos siz filePos calls)).run ((readable blockDev file siz filePos).toNat + attempts.length)
        ⟨extended blockDev file siz filePos, ⟨⟨buf.array, bufPos.toNat⟩, filePos, readable blockDev file siz filePos, 0, false, []⟩,
          attempts⟩).result.map fun t => (t.file, t.reading.read, t.reading.buf, t.attempts) := by
  obtain ⟨least, small, low, high⟩ := placed
  have future : long (siz + filePos) = filePos + siz := by
    rw [long_eq (by omega) (by omega), Int.add_comm]
  have bytesLeft : (if filePos + siz > (extended blockDev file siz filePos).length then
      int ((extended blockDev file siz filePos).length - filePos) else siz) = readable blockDev file siz filePos := by
    unfold extended readable
    cases blockDev with
    | true =>
      simp only [true_and, if_true]
      split_ifs <;> omega
    | false =>
      have inside : filePos < file.length := by
        by_contra past
        exact before ⟨not_lt.mp past, rfl⟩
      have fewer := available small inside
      rw [Int.add_comm siz filePos] at fewer
      simpa using fewer
  unfold readIn
  rw [if_neg before, ByteBuffer.seek, if_pos ⟨first, last⟩, future]
  dsimp only [Option.bind_eq_bind, Option.bind_some]
  unfold extended at bytesLeft ⊢
  rw [bytesLeft]
  cases (readTryLoop (readIn blockDev bufPos siz filePos calls)).run _ _ <;> rfl

theorem extended_extended (blockDev : Bool) (file : DedupFile C) (siz filePos : Int) :
    extended blockDev (extended blockDev file siz filePos) siz filePos = extended blockDev file siz filePos := by
  unfold extended
  cases blockDev
  · simp
  · simp only [true_and]
    congr 1
    split_ifs <;> omega

theorem readable_extended (blockDev : Bool) (file : DedupFile C) (siz filePos : Int) :
    readable blockDev (extended blockDev file siz filePos) siz filePos = readable blockDev file siz filePos := by
  unfold readable extended
  cases blockDev <;> simp

theorem inFile_extended (placed : Placed siz filePos) (file : DedupFile C) (positive : 0 < readable blockDev file siz filePos) :
    InFile (extended blockDev file siz filePos) filePos (readable blockDev file siz filePos).toNat := by
  obtain ⟨-, -, low, high⟩ := placed
  unfold readable at positive ⊢
  unfold extended
  cases blockDev with
  | true =>
    simp only [if_true] at positive ⊢
    refine ⟨low, by omega, ?_⟩
    simp only [true_and]
    split_ifs <;> omega
  | false =>
    simp only [Bool.false_eq_true, if_false] at positive ⊢
    refine ⟨low, by omega, ?_⟩
    simp only [false_and, if_false]
    omega

def onceWritten (file : DedupFile C) (filePos : Int) (n first room : Nat) : List Write :=
  [⟨(fileBytes file filePos n).take (room - first), first⟩]

theorem fills_once (file : DedupFile C) (filePos : Int) (n : Nat) (first_le : first ≤ room) :
    Fills file filePos n first room (onceWritten file filePos n first room) (min (first + n) room) where
  before f x less := by
    rw [onceWritten, overlay_cons, overlay_nil, written, patch, if_neg (mt Write.covers_iff.mp (by dsimp only; omega))]
  range f x low high := by
    have covers : (⟨(fileBytes file filePos n).take (room - first), first⟩ : Write).covers x = true := by
      rw [Write.covers_iff, List.length_take, length_fileBytes]
      dsimp only
      omega
    have found := Write.byteAt_of_covers covers
    have part : (fileBytes file filePos n).take (room - first) = slice (fileBytes file filePos n) 0 (room - first) := rfl
    rw [onceWritten, overlay_cons, overlay_nil, written, patch, if_pos covers, ← found]
    dsimp only
    rw [part, byteAt_slice, if_pos (by omega), Nat.cast_zero, Int.zero_add, byteAt_fileBytes file _ (by omega) (by omega)]
  low := Nat.le_refl _
  high := Nat.min_le_right _ _

theorem once_apart (file : DedupFile C) (filePos : Int) (n first room : Nat) (f : Int → Option UInt8) :
    overlay f (onceWritten file filePos n first room) (first + n : Nat) = f (first + n : Nat) := by
  have short := List.length_take_le' (room - first) (fileBytes file filePos n)
  rw [length_fileBytes] at short
  rw [onceWritten, overlay_cons, overlay_nil, written, patch,
    if_neg (mt Write.covers_iff.mp (by dsimp only; push_cast; omega))]

theorem makes_call (inFile : InFile file filePos n) (first_le : first ≤ room) {calls : Nat}
    (inner : Inner file filePos n first room calls again) {attempts : Attempts} (few : attempts.length ≤ calls) :
    ∃ (ws : List Write) (position : Nat) (rest : Attempts), rest.length ≤ attempts.length ∧
      Fills file filePos n first room ws position ∧
      (strikes attempts (piecesOf C filePos n) = false → ws = onceWritten file filePos n first room ∧
        position = min (first + n) room) ∧
      (strikes attempts (piecesOf C filePos n) = true → first + n < room → Fixes ws (first + n : Nat)) ∧
      Makes file filePos n room again (n + attempts.length) 0 first attempts ws position rest := by
  have start : filePos + ((0 : Nat) : Int) = filePos := Int.add_zero filePos
  have all : ((n : Int) - ((0 : Nat) : Int)) = n := Int.sub_zero _
  cases struck : strikes attempts (piecesOf C filePos n) with
  | true =>
    rw [← start, ← all] at struck
    obtain ⟨ws, position, rest, fewer, fills, fixes, makes⟩ := makes_interrupted inFile first_le inner
      (n + attempts.length) struck (Nat.zero_le n) (Nat.le_refl first) first_le few (Nat.le_refl _)
    exact ⟨ws, position, rest, fewer, fills, nofun, fun _ => fixes, makes⟩
  | false =>
    rw [← start, ← all] at struck
    have makes := makes_quiet again inFile first_le struck (Nat.le_add_right n attempts.length)
    have size : first + ((fileBytes file filePos n).take (room - first)).length = min (first + n) room := by
      rw [List.length_take, length_fileBytes]
      omega
    rw [start, Nat.sub_zero, size] at makes
    exact ⟨_, _, _, behind_le _ _, fills_once file filePos n first_le, fun _ => ⟨rfl, rfl⟩, nofun, makes⟩

theorem readIn_made (placed : Placed siz filePos) (file : DedupFile C) (positive : 0 < readable blockDev file siz filePos)
    (low : 0 ≤ bufPos) {calls : Nat} {attempts : Attempts} {ws : List Write} {position : Nat} {rest : Attempts}
    (makes : Makes (extended blockDev file siz filePos) filePos (readable blockDev file siz filePos).toNat room
      (readIn blockDev bufPos siz filePos calls) ((readable blockDev file siz filePos).toNat + attempts.length) 0 bufPos.toNat
      attempts ws position rest) (within : bufPos ≤ room) (length : buf.array.length = room) :
    ∃ a, readIn blockDev bufPos siz filePos (calls + 1) file buf attempts =
        some (extended blockDev file siz filePos, readable blockDev file siz filePos, ⟨a, position⟩, rest) ∧
      a.length = room ∧ byteAt a = overlay (byteAt buf.array) ws := by
  have before : ¬ (file.length ≤ filePos ∧ blockDev = false) := by
    rintro ⟨past, rfl⟩
    simp only [readable, Bool.false_eq_true, if_false] at positive
    omega
  have whole : ((readable blockDev file siz filePos).toNat : Int) = readable blockDev file siz filePos :=
    Int.toNat_of_nonneg positive.le
  obtain ⟨u, finished, ended, left, at_, size, written⟩ := makes
    ⟨extended blockDev file siz filePos, ⟨⟨buf.array, bufPos.toNat⟩, filePos, readable blockDev file siz filePos, 0, false, []⟩, attempts⟩
    ⟨rfl, (Int.add_zero filePos).symm, by rw [whole]; exact (Int.sub_zero _).symm, rfl, Nat.zero_le _, fun _ => rfl⟩
    rfl rfl length
  refine ⟨u.reading.buf.array, ?_, size, written⟩
  rw [readIn_eq placed calls file low (by omega) attempts before, finished]
  have read := ended.read
  rw [whole] at read
  dsimp only [Outcome.result, Option.map_some]
  rw [ended.file, read, left, ← at_]

theorem readIn_inner (placed : Placed siz filePos) (file : DedupFile C) (positive : 0 < readable blockDev file siz filePos)
    (low : 0 ≤ bufPos) (within : bufPos ≤ room) (calls : Nat) :
    Inner (extended blockDev file siz filePos) filePos (readable blockDev file siz filePos).toNat bufPos.toNat room calls
      (readIn blockDev bufPos siz filePos calls) := by
  induction calls with
  | zero => exact fun attempts none_left => absurd none_left (Nat.not_lt_zero _)
  | succ calls ih =>
    intro attempts few
    obtain ⟨ws, position, rest, fewer, fills, once, fixes, makes⟩ := makes_call (inFile_extended placed file positive)
      (Int.toNat_le.mpr within) ih (Nat.lt_succ_iff.mp few)
    refine ⟨ws, position, rest, fewer, fills, ?_, fun buf length => ?_⟩
    · cases struck : strikes attempts (piecesOf C filePos (readable blockDev file siz filePos).toNat) with
      | true => exact .inr (fixes struck)
      | false => exact .inl (once struck).2
    · rw [← extended_extended blockDev file, ← readable_extended blockDev file] at makes
      have made := readIn_made placed (extended blockDev file siz filePos) (by rw [readable_extended]; exact positive) low
        makes within length
      rw [extended_extended, readable_extended] at made
      rw [Int.toNat_of_nonneg positive.le]
      exact made

/-! ### Requests -/

def Op.capacity : Op → Nat
  | .writeFile buf _ _ _ | .read buf _ _ _ => buf.array.length

def Op.withArray (array : Bytes) : Op → Op
  | .writeFile buf len pos offset => .writeFile { buf with array } len pos offset
  | .read buf bufPos siz filePos => .read { buf with array } bufPos siz filePos

def Op.Placed : Op → Prop
  | .writeFile _ len _ offset => DedupFileChannel.Placed len offset
  | .read _ _ siz filePos => DedupFileChannel.Placed siz filePos

/-- A request has the effect that it has without exceptions: on the file, and of a read on the bytes of the caller's
buffer and the count. -/
def Transparent (blockDev : Bool) (file : DedupFile C) (attempts : Attempts) : Op → Prop
  | .writeFile buf len pos offset =>
    (writeFileTrying file buf len pos offset attempts).map content =
      (writeFile file buf len pos offset).map fun r => content r.1
  | .read buf bufPos siz filePos =>
    ((readTrying blockDev file buf bufPos siz filePos attempts).map fun r => (r.1, r.2.1, r.2.2.1.array)) =
      (read blockDev file buf bufPos siz filePos).map fun r => (r.1, r.2.1, r.2.2.1.array)

/-- A read is made again, and the buffer has room behind the range. -/
def Op.Overruns (blockDev : Bool) (file : DedupFile C) (attempts : Attempts) : Op → Prop
  | .writeFile .. => False
  | .read buf bufPos siz filePos => 0 ≤ bufPos ∧ bufPos + readable blockDev file siz filePos < buf.array.length ∧
    strikes attempts (piecesOf C filePos (readable blockDev file siz filePos)) = true

/-! ### Reads without exceptions -/

theorem readTryLoop_calm (file : DedupFile C) (s : Reading) (fuel : Nat) :
    (readTryLoop again).run fuel ⟨file, s, []⟩ = ((readLoop file).run fuel s).map fun s => ⟨file, s, []⟩ :=
  (readLoop file).run_map (readTryLoop again) (g := fun s => ⟨file, s, []⟩) (fun _ => rfl) (fun _ => rfl) fuel s

theorem read_eq_readIn (blockDev : Bool) (file : DedupFile C) (buf : ByteBuffer) (bufPos siz filePos : Int) :
    ((read blockDev file buf bufPos siz filePos).map fun r => (r.1, r.2.1, r.2.2.1.array)) =
      (readTrying blockDev file buf bufPos siz filePos []).map fun r => (r.1, r.2.1, r.2.2.1.array) := by
  unfold readTrying readIn read
  by_cases past : file.length ≤ filePos ∧ blockDev = false
  · rw [if_pos past, if_pos past]
    rfl
  · rw [if_neg past, if_neg past]
    cases buf.seek bufPos with
    | none => rfl
    | some placed =>
      dsimp only [Option.bind_eq_bind, Option.bind_some]
      rw [readTryLoop_calm]
      simp only [List.length_nil, Nat.add_zero]
      cases (readLoop _).run _ _ <;> rfl

theorem transparent_read {attempts : Attempts} :
    Transparent blockDev file attempts (.read buf bufPos siz filePos) ↔
      ((readTrying blockDev file buf bufPos siz filePos attempts).map fun r => (r.1, r.2.1, r.2.2.1.array)) =
        (readTrying blockDev file buf bufPos siz filePos []).map fun r => (r.1, r.2.1, r.2.2.1.array) := by
  rw [← read_eq_readIn]
  rfl

/-! ### Reads with exceptions -/

theorem readTrying_made (placed : Placed siz filePos) (file : DedupFile C) (positive : 0 < readable blockDev file siz filePos)
    (low : 0 ≤ bufPos) (within : bufPos ≤ room) (attempts : Attempts) :
    ∃ (ws : List Write) (position : Nat) (rest : Attempts),
      Fills (extended blockDev file siz filePos) filePos (readable blockDev file siz filePos).toNat bufPos.toNat room ws position ∧
      (strikes attempts (piecesOf C filePos (readable blockDev file siz filePos)) = false →
        ws = onceWritten (extended blockDev file siz filePos) filePos (readable blockDev file siz filePos).toNat bufPos.toNat room) ∧
      (strikes attempts (piecesOf C filePos (readable blockDev file siz filePos)) = true →
        bufPos.toNat + (readable blockDev file siz filePos).toNat < room →
          Fixes ws (bufPos.toNat + (readable blockDev file siz filePos).toNat : Nat)) ∧
      ∀ buf : ByteBuffer, buf.array.length = room → ∃ a, readTrying blockDev file buf bufPos siz filePos attempts =
          some (extended blockDev file siz filePos, readable blockDev file siz filePos, ⟨a, position⟩, rest) ∧
        a.length = room ∧ byteAt a = overlay (byteAt buf.array) ws := by
  obtain ⟨ws, position, rest, -, fills, once, fixes, makes⟩ := makes_call (inFile_extended placed file positive)
    (Int.toNat_le.mpr within) (readIn_inner placed file positive low within attempts.length) (Nat.le_refl attempts.length)
  rw [Int.toNat_of_nonneg positive.le] at once fixes
  exact ⟨ws, position, rest, fills, fun quiet => (once quiet).1, fixes,
    fun buf length => readIn_made placed file positive low makes within length⟩

theorem strikes_calm (k : Nat) : strikes [] k = false := by
  induction k with
  | zero => rfl
  | succ k ih => exact ih

theorem readTrying_none (placed : Placed siz filePos) (file : DedupFile C) {buf : ByteBuffer}
    (empty : ¬ 0 < readable blockDev file siz filePos) (attempts : Attempts) :
    ((readTrying blockDev file buf bufPos siz filePos attempts).map fun r => (r.1, r.2.1, r.2.2.1.array)) =
      (readTrying blockDev file buf bufPos siz filePos []).map fun r => (r.1, r.2.1, r.2.2.1.array) := by
  unfold readTrying
  by_cases past : file.length ≤ filePos ∧ blockDev = false
  · unfold readIn
    rw [if_pos past, if_pos past]
    rfl
  · by_cases inside : 0 ≤ bufPos ∧ bufPos ≤ buf.array.length
    · rw [readIn_eq placed _ file inside.1 inside.2 _ past, readIn_eq placed _ file inside.1 inside.2 _ past,
        Loop.run_stopped _ (Bool.and_eq_false_iff.mpr (.inl (decide_eq_false empty))),
        Loop.run_stopped _ (Bool.and_eq_false_iff.mpr (.inl (decide_eq_false empty)))]
      rfl
    · unfold readIn
      rw [if_neg past, if_neg past, ByteBuffer.seek, if_neg inside]
      rfl

theorem readTrying_outside (file : DedupFile C) {buf : ByteBuffer} (outside : ¬ (0 ≤ bufPos ∧ bufPos ≤ buf.array.length))
    (attempts : Attempts) :
    ((readTrying blockDev file buf bufPos siz filePos attempts).map fun r => (r.1, r.2.1, r.2.2.1.array)) =
      (readTrying blockDev file buf bufPos siz filePos []).map fun r => (r.1, r.2.1, r.2.2.1.array) := by
  unfold readTrying readIn
  rw [ByteBuffer.seek, if_neg outside]
  split <;> rfl

/-- Whatever the buffer holds, a read with exceptions does what it does without any, if and only if it is not made again
or the buffer ends with the range. -/
theorem read_transparent_iff (placed : Placed siz filePos) (file : DedupFile C) (room from_ : Nat) (attempts : Attempts) :
    (∀ array : Bytes, array.length = room →
      Transparent blockDev file attempts (.read ⟨array, from_⟩ bufPos siz filePos)) ↔
    ¬ (0 ≤ bufPos ∧ bufPos + readable blockDev file siz filePos < room ∧
      strikes attempts (piecesOf C filePos (readable blockDev file siz filePos)) = true) := by
  by_cases positive : 0 < readable blockDev file siz filePos
  · by_cases inside : 0 ≤ bufPos ∧ bufPos ≤ room
    · obtain ⟨low, within⟩ := inside
      obtain ⟨ws, position, rest, fills, once, fixes, made⟩ := readTrying_made placed file positive low within attempts
      obtain ⟨vs, position', rest', fills', once', -, made'⟩ := readTrying_made placed file positive low within []
      have written_once := once' (strikes_calm _)
      have place : bufPos + readable blockDev file siz filePos =
          (bufPos.toNat + (readable blockDev file siz filePos).toNat : Nat) := by omega
      constructor
      · rintro same ⟨-, more, struck⟩
        rw [place] at more
        obtain ⟨v, fixed⟩ := fixes struck (by exact_mod_cast more)
        -- A byte that differs from the one that is put behind the range.
        obtain ⟨u, other⟩ : ∃ u : UInt8, u ≠ v := by
          by_cases zero : v = 0
          · exact ⟨1, by rw [zero]; decide⟩
          · exact ⟨0, Ne.symm zero⟩
        have transparent := transparent_read.mp (same (List.replicate room u) List.length_replicate)
        obtain ⟨a, tried, -, bytes_a⟩ := made ⟨List.replicate room u, from_⟩ List.length_replicate
        obtain ⟨b, calm, -, bytes_b⟩ := made' ⟨List.replicate room u, from_⟩ List.length_replicate
        rw [tried, calm] at transparent
        have arrays : a = b := congrArg (fun r => r.2.2) (Option.some.inj transparent)
        have behind := congrFun bytes_b (bufPos.toNat + (readable blockDev file siz filePos).toNat : Nat)
        rw [written_once, once_apart, ← arrays, bytes_a, fixed, byteAt_replicate, if_pos (by omega)] at behind
        exact other (Option.some.inj behind).symm
      · intro spared array length
        obtain ⟨a, tried, size, bytes_a⟩ := made ⟨array, from_⟩ length
        obtain ⟨b, calm, size', bytes_b⟩ := made' ⟨array, from_⟩ length
        rw [transparent_read, tried, calm]
        have arrays : a = b := by
          apply byteAt_ext
          intro x
          cases struck : strikes attempts (piecesOf C filePos (readable blockDev file siz filePos)) with
          | false => rw [bytes_a, bytes_b, once struck, written_once]
          | true =>
            have full : (room : Int) ≤ bufPos + readable blockDev file siz filePos :=
              not_lt.mp fun more => spared ⟨low, more, struck⟩
            by_cases before : x < bufPos.toNat
            · rw [bytes_a, bytes_b, fills.before _ x before, fills'.before _ x before]
            · by_cases there : x < room
              · rw [bytes_a, bytes_b, fills.range _ x (by omega) (by omega), fills'.range _ x (by omega) (by omega)]
              · rw [byteAt_eq_none (by omega), byteAt_eq_none (by omega)]
        rw [Option.map_some, Option.map_some, arrays]
    · refine iff_of_true (fun array length => ?_) fun overruns => inside ⟨overruns.1, by omega⟩
      exact transparent_read.mpr (readTrying_outside file (by rw [length]; exact inside) attempts)
  · refine iff_of_true (fun array length => ?_) fun overruns => ?_
    · exact transparent_read.mpr (readTrying_none placed file positive attempts)
    · have struck := overruns.2.2
      rw [piecesOf, if_neg positive] at struck
      cases struck

/-- Whatever the buffer of a request holds, its retries are transparent if and only if it is not a read that is made again
with room behind its range. -/
theorem retries_iff (blockDev : Bool) (file : DedupFile C) (attempts : Attempts) (op : Op) (placed : op.Placed) :
    (∀ array : Bytes, array.length = op.capacity → Transparent blockDev file attempts (op.withArray array)) ↔
      ¬ op.Overruns blockDev file attempts := by
  cases op with
  | writeFile buf len pos offset =>
    exact iff_of_true (fun array _ => writeFileTrying_content placed.low placed.high pos attempts) id
  | read buf bufPos siz filePos => exact read_transparent_iff placed file buf.array.length buf.position attempts

def firstChunk : Op := .read ⟨List.replicate 6 9, 0⟩ 0 4 0

theorem retries_iff_firstChunk :
    (∀ array : Bytes, array.length = firstChunk.capacity →
      Transparent false (DedupFile.blank fourBytes 8) [some .fileClosed] (firstChunk.withArray array)) ↔
      ¬ firstChunk.Overruns false (DedupFile.blank fourBytes 8) [some .fileClosed] :=
  retries_iff false (DedupFile.blank fourBytes 8) [some .fileClosed] firstChunk
    ⟨by decide, by decide, by decide, by decide⟩

/-- The chunk is put into the buffer a second time, behind the first one. -/
theorem firstChunk_overruns : ¬ Transparent false (DedupFile.blank fourBytes 8) [some .fileClosed] firstChunk := by
  intro transparent
  have arrays := congrArg (Option.map fun r : DedupFile fourBytes × Int × Bytes => r.2.2) transparent
  simp only [Option.map_map] at arrays
  have with_exception : (readTrying false (DedupFile.blank fourBytes 8) ⟨List.replicate 6 9, 0⟩ 0 4 0 [some .fileClosed]).map
      (fun r => r.2.2.1.array) = some [0, 0, 0, 0, 0, 0] := by decide +kernel
  have without : (read false (DedupFile.blank fourBytes 8) ⟨List.replicate 6 9, 0⟩ 0 4 0).map (fun r => r.2.2.1.array) =
      some [0, 0, 0, 0, 9, 9] := by decide +kernel
  have same := with_exception.symm.trans (arrays.trans without)
  exact absurd (Option.some.inj same) (by decide)

end EncryptedDedup.SDFS.DedupFileChannel
