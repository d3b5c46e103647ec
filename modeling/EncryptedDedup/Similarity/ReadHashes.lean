import EncryptedDedup.SingleStream.LocalityCount
import EncryptedDedup.Lib.Segments

/-!
# `read_hashes` of the similarity programs

`pslice` and `cslice` cut a trace into segments in the same loop. They differ in what they keep of a
segment, which is the state `σ` here.
-/

namespace EncryptedDedup.Similarity
open LocalityCount (isTitle)

def segSize : Nat := 1 <<< 23

structure Node where
  key : Fp
  size : Nat
  deriving DecidableEq

/-- The entry of a line; none if it has no size and `atoi` is called with a null pointer. -/
def entryOf (line : Bytes) : Option Node :=
  (readChunk line).2.map fun item => ⟨(readChunk line).1, toU64 (atoi item)⟩

/-- `sq` and `sq_size`, with what the program keeps beside them. -/
structure Window (σ : Type) where
  sq : List Node
  sqSize : Nat
  side : σ

/-- What a program does when a chunk enters the segment, and what it does with a whole segment; that
may be undefined. -/
structure Program (σ : Type) where
  push : Node → σ → σ
  processSeg : List Node → σ → Option σ

variable {σ : Type} (P : Program σ)

/-- A chunk that does not fit starts a new segment. -/
def readEntry (w : Window σ) (entry : Node) : Option (Window σ) := do
  let w ←
    if segSize < (w.sqSize + entry.size) % 2 ^ 64 then (P.processSeg w.sq w.side).map (⟨[], 0, ·⟩) else some w
  some ⟨w.sq ++ [entry], (w.sqSize + entry.size) % 2 ^ 64, P.push entry w.side⟩

def readLine (w : Window σ) (line : Bytes) : Option (Window σ) :=
  if isTitle line then some w
  else do
    let entry ← entryOf line
    readEntry P w entry

def readHashes (s : σ) (fp : Bytes) : Option σ := do
  let w ← (bufferLines 256 fp).foldlM (readLine P) ⟨[], 0, s⟩
  P.processSeg w.sq w.side

/-- The chunks of a trace; none if a chunk line has no size. -/
def trace (fp : Bytes) : Option (List Node) := ((bufferLines 256 fp).filter fun line => !isTitle line).mapM entryOf

def runSeg (s : σ) (seg : List Node) : Option σ := P.processSeg seg (seg.foldl (fun s x => P.push x s) s)

/-! ### The loop as a cut into segments -/

variable {P}

theorem foldlM_readLine (lines : List Bytes) {chunks : List Node} (w : Window σ)
    (read : (lines.filter fun line => !isTitle line).mapM entryOf = some chunks) :
    lines.foldlM (readLine P) w = chunks.foldlM (readEntry P) w := by
  induction lines generalizing chunks w with
  | nil =>
    rw [List.filter_nil, List.mapM_nil] at read
    cases Option.some.inj read
    rfl
  | cons line lines ih =>
    rw [List.foldlM_cons, readLine]
    by_cases title : isTitle line = true
    · rw [List.filter_cons_of_neg (by rw [title]; decide)] at read
      rw [if_pos title]
      exact ih w read
    · rw [List.filter_cons_of_pos (by rwa [Bool.not_eq_true', ← Bool.not_eq_true]), List.mapM_cons] at read
      obtain ⟨entry, first, rest⟩ := Option.bind_eq_some_iff.mp read
      obtain ⟨others, later, same⟩ := Option.bind_eq_some_iff.mp rest
      cases Option.some.inj same
      rw [if_neg title, first, List.foldlM_cons]
      congr 1
      funext w'
      exact ih w' later

theorem readEntry_room {w : Window σ} {entry : Node} (room : (w.sqSize + entry.size) % 2 ^ 64 ≤ segSize) :
    readEntry P w entry = some ⟨w.sq ++ [entry], (w.sqSize + entry.size) % 2 ^ 64, P.push entry w.side⟩ := by
  rw [readEntry, if_neg (Nat.not_lt.mpr room), Option.bind_eq_bind, Option.bind_some]

theorem readEntry_full {w : Window σ} {entry : Node} (full : segSize < (w.sqSize + entry.size) % 2 ^ 64) :
    readEntry P w entry =
      (P.processSeg w.sq w.side).map fun s => ⟨[entry], entry.size % 2 ^ 64, P.push entry s⟩ := by
  rw [readEntry, if_pos full]
  cases P.processSeg w.sq w.side with
  | none => rfl
  | some s => simp

theorem foldlM_readEntry {seg items : List Node} (small : ∀ x ∈ seg ++ items, x.size < 2 ^ 31)
    (light : weightOf Node.size seg < 2 ^ 31) (s : σ) :
    (items.foldlM (readEntry P) ⟨seg, weightOf Node.size seg, seg.foldl (fun s x => P.push x s) s⟩ >>=
      fun w => P.processSeg w.sq w.side) = (segments segSize Node.size seg items).foldlM (runSeg P) s := by
  induction items generalizing seg s with
  | nil =>
    rw [segments, List.foldlM_cons, runSeg]
    exact (bind_pure _).symm
  | cons x items ih =>
    have sized := small x (List.mem_append_right _ List.mem_cons_self)
    have kept : (weightOf Node.size seg + x.size) % 2 ^ 64 = weightOf Node.size seg + x.size :=
      Nat.mod_eq_of_lt (by omega)
    rw [List.foldlM_cons, segments]
    split
    · rename_i full
      rw [readEntry_full (by rwa [kept]), List.foldlM_cons, runSeg]
      cases P.processSeg seg (seg.foldl (fun s x => P.push x s) s) with
      | none => rfl
      | some s' =>
        have alone : weightOf Node.size [x] = x.size % 2 ^ 64 := by
          rw [weightOf, List.map_singleton, List.sum_singleton, Nat.mod_eq_of_lt (by omega)]
        have later := @ih [x] (fun y member => small y (List.mem_append_right _ member)) (by rw [alone]; omega) s'
        rw [alone] at later
        exact later
    · rename_i room
      rw [readEntry_room (by rw [kept]; exact Nat.not_lt.mp room), kept]
      have later := @ih (seg ++ [x]) (by rwa [List.append_assoc])
        (by rw [weightOf_concat]; unfold segSize at room; omega) s
      rw [weightOf_concat, List.foldl_append] at later
      exact later

theorem readHashes_segments {fp : Bytes} {first : Node} {rest : List Node} (read : trace fp = some (first :: rest))
    (small : ∀ x ∈ first :: rest, x.size < 2 ^ 31) (fits : first.size ≤ segSize) (s : σ) :
    readHashes P s fp = (segments segSize Node.size [first] rest).foldlM (runSeg P) s := by
  have fit := small first List.mem_cons_self
  have alone : (0 + first.size) % 2 ^ 64 = weightOf Node.size [first] := by
    rw [weightOf, List.map_singleton, List.sum_singleton, Nat.zero_add, Nat.mod_eq_of_lt (by omega)]
  have light : weightOf Node.size [first] = first.size := by rw [weightOf, List.map_singleton, List.sum_singleton]
  rw [readHashes, foldlM_readLine _ _ read, List.foldlM_cons,
    readEntry_room (by dsimp only; rw [alone, light]; exact fits), alone]
  exact foldlM_readEntry small (light.trans_lt fit) s

end EncryptedDedup.Similarity
