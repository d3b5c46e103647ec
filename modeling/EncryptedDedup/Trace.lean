import EncryptedDedup.Lib.CText

/-!
# Chunk traces

A trace is a text file with a chunk per line: six hex bytes of fingerprint, the chunk size and the
compression ratio. Every program of the suite reads a line with the same token loop.
-/

namespace EncryptedDedup

def fpSize : Nat := 6

/-- A chunk fingerprint, `char[FP_SIZE]`. -/
structure Fp where
  bytes : Bytes
  size_eq : bytes.length = fpSize

theorem Fp.ext {x y : Fp} (same : x.bytes = y.bytes) : x = y := by
  cases x
  cases y
  cases same
  rfl

instance instLinearOrderFp : LinearOrder Fp := LinearOrder.lift' Fp.bytes fun _ _ => Fp.ext

def Fp.ofBytes (b : Bytes) : Fp := ⟨resize fpSize b, length_resize fpSize b⟩

theorem Fp.ofBytes_eq {b : Bytes} (size : b.length = fpSize) : (Fp.ofBytes b).bytes = b := by
  show resize fpSize b = b
  rw [← size, resize_length]

@[simp] theorem Fp.ofBytes_bytes (x : Fp) : Fp.ofBytes x.bytes = x := Fp.ext (Fp.ofBytes_eq x.size_eq)

/-- `hash[idx++] = strtol(item, NULL, 16)`, the low byte of the number. -/
def hexByte (item : Bytes) : UInt8 := UInt8.ofNat (strtol 16 item % 256).toNat

/-- `while (item != NULL && idx < FP_SIZE)` with `n` bytes of the hash still to fill. The result is
the bytes read and the token the loop stops at. -/
def readHash : Nat → Option (Bytes × Bytes) → Bytes × Option Bytes
  | 0, item => ([], item.map Prod.fst)
  | _ + 1, none => ([], none)
  | n + 1, some (item, rest) =>
    let (hash, next) := readHash n (strtok rest (chars [':', '\t', '\n']))
    (hexByte item :: hash, next)

def readChunk (line : Bytes) : Fp × Option Bytes :=
  let (hash, item) := readHash fpSize (strtok line (chars [':', '\t', '\n', ' ']))
  (Fp.ofBytes hash, item)

/-- Tokens with the delimiters that end them, and what follows. -/
def fields (tokens : List (Bytes × UInt8)) (rest : Bytes) : Bytes := tokens.flatMap (fun f => f.1 ++ [f.2]) ++ rest

theorem fields_cons (f : Bytes × UInt8) (tokens : List (Bytes × UInt8)) (rest : Bytes) :
    fields (f :: tokens) rest = f.1 ++ f.2 :: fields tokens rest := by
  simp [fields]

def IsToken (token : Bytes) : Prop := token ≠ [] ∧ ∀ x ∈ token, (chars [':', '\t', '\n', ' ']).contains x = false

instance instDecidableIsToken (token : Bytes) : Decidable (IsToken token) :=
  inferInstanceAs (Decidable (token ≠ [] ∧ ∀ x ∈ token, (chars [':', '\t', '\n', ' ']).contains x = false))

theorem IsToken.plain {token : Bytes} (good : IsToken token) :
    ∀ x ∈ token, (chars [':', '\t', '\n']).contains x = false := by
  intro x member
  have other := good.2 x member
  simp only [chars, List.map_cons, List.map_nil, List.contains_cons, List.contains_nil, Bool.or_false,
    Bool.or_eq_false_iff] at other ⊢
  exact ⟨other.1, other.2.1, other.2.2.1⟩

theorem readHash_fields {tokens : List (Bytes × UInt8)} {item rest : Bytes} {c : UInt8}
    (good : ∀ f ∈ tokens, IsToken f.1 ∧ (chars [':', '\t', '\n']).contains f.2 = true) (goodItem : IsToken item)
    (ends : (chars [':', '\t', '\n']).contains c = true)
    (visible : (0 : UInt8) ∉ fields tokens (item ++ c :: rest)) :
    readHash tokens.length (strtok (fields tokens (item ++ c :: rest)) (chars [':', '\t', '\n'])) =
      (tokens.map fun f => hexByte f.1, some item) := by
  induction tokens with
  | nil =>
    have line : fields [] (item ++ c :: rest) = item ++ c :: rest := rfl
    rw [line] at visible ⊢
    rw [strtok_token goodItem.1 goodItem.plain ends visible]
    rfl
  | cons f tokens ih =>
    obtain ⟨goodToken, ended⟩ := good f List.mem_cons_self
    rw [fields_cons] at visible ⊢
    have shown : (0 : UInt8) ∉ fields tokens (item ++ c :: rest) := fun zero =>
      visible (List.mem_append_right _ (List.mem_cons_of_mem _ zero))
    have tail := ih (fun g member => good g (List.mem_cons_of_mem _ member)) shown
    rw [strtok_token goodToken.1 goodToken.plain ended visible, List.length_cons, readHash, tail, List.map_cons]

theorem readChunk_fields {tokens : List (Bytes × UInt8)} {item rest : Bytes} {c : UInt8} (six : tokens.length = fpSize)
    (good : ∀ f ∈ tokens, IsToken f.1 ∧ (chars [':', '\t', '\n']).contains f.2 = true) (goodItem : IsToken item)
    (ends : (chars [':', '\t', '\n']).contains c = true)
    (visible : (0 : UInt8) ∉ fields tokens (item ++ c :: rest)) :
    readChunk (fields tokens (item ++ c :: rest)) = (Fp.ofBytes (tokens.map fun f => hexByte f.1), some item) := by
  have hash := readHash_fields good goodItem ends visible
  rw [six] at hash
  -- The first call has the space as one more delimiter, which no token contains.
  have first : strtok (fields tokens (item ++ c :: rest)) (chars [':', '\t', '\n', ' ']) =
      strtok (fields tokens (item ++ c :: rest)) (chars [':', '\t', '\n']) := by
    obtain ⟨f, others, rfl⟩ := List.exists_cons_of_ne_nil (List.ne_nil_of_length_pos (by rw [six]; decide))
    obtain ⟨goodToken, ended⟩ := good f List.mem_cons_self
    have ended' : (chars [':', '\t', '\n', ' ']).contains f.2 = true := by
      simp only [chars, List.map_cons, List.map_nil, List.contains_cons, List.contains_nil, Bool.or_false,
        Bool.or_eq_true] at ended ⊢
      rcases ended with h | h | h
      · exact Or.inl h
      · exact Or.inr (Or.inl h)
      · exact Or.inr (Or.inr (Or.inl h))
    rw [fields_cons] at visible ⊢
    rw [strtok_token goodToken.1 goodToken.2 ended' visible, strtok_token goodToken.1 goodToken.plain ended visible]
  rw [readChunk, first, hash]

/-- The buffer of a line that has been read holds one token, so it has no size. -/
theorem readChunk_strtokLeft (line : Bytes) :
    (readChunk (strtokLeft line (chars [':', '\t', '\n', ' ']))).2 = none := by
  rw [readChunk, strtok_strtokLeft]
  cases strtok line (chars [':', '\t', '\n', ' ']) with
  | none => rfl
  | some found => rfl

end EncryptedDedup
