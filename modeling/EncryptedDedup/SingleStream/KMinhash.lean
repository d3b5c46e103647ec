import EncryptedDedup.Bucket.EncryptRun
import EncryptedDedup.SingleStream.LocalityCount

/-!
# `k_minhash`

Writes the trace of the encrypted chunks. A chunk is encrypted under the least fingerprint of its segment; the segments are
single chunks.
-/

namespace EncryptedDedup.KMinhash

open LocalityCount (isTitle chunksOf traceOf)

structure Node where
  key : Fp
  size : Nat

/-- The globals, and what has been printed. `pq` holds `K_MINHASH` nodes at most, which is one. -/
structure State where
  relate : OrderedMap Fp Bytes
  pq : Option Node
  sq : List Node
  sqSize : Nat
  out : Bytes

def title : Bytes := chars "Chunk Hash\t\t\tChunk Size (bytes)\tCompression Ratio (tenth)".toList

/-- `%.2hhx`, five times `:%.2hhx`, and `\t\t%lu \t\t\t10`. -/
def formatNode (ret : Fp) (size : Nat) : Bytes :=
  fields ((ret.bytes.map formatByte).zip (chars [':', ':', ':', ':', ':', '\t']))
    ('\t'.toUInt8 :: decimal size ++ chars [' ', '\t', '\t', '\t', '1', '0'])

/-- The heap keeps the least fingerprint. -/
def keepLeast (pq : Option Node) (entry : Node) : Option Node :=
  match pq with
  | none => some entry
  | some max => if entry.key < max.key then some entry else some max

variable (md5 : Fp → Fp → Fp)

/-- One turn of the loop over `sq`; `md5` gives the first six bytes of the MD5 digest of two fingerprints. -/
def encryptNode (core : Node) (s : State) (now : Node) : State :=
  let ret := md5 now.key core.key
  { s with relate := s.relate.put ret now.key.bytes, out := s.out ++ (formatNode ret now.size ++ [10]) }

/-- `rand()%K_MINHASH` is 0, so nothing is popped before `pq.top()`. -/
def processSeg (s : State) : Option State := do
  let core ← s.pq
  some (s.sq.foldl (encryptNode md5 core) { s with sq := [] })

/-- One turn of the read loop; none if `atoi` is called with a null pointer. -/
def readLine (s : State) (line : Bytes) : Option State :=
  if isTitle line then some s
  else do
    let (hash, item) := readChunk line
    let entry : Node := ⟨hash, toU64 (atoi (← item))⟩
    let s ← processSeg md5 { s with
      pq := keepLeast s.pq entry, sq := s.sq ++ [entry], sqSize := (s.sqSize + entry.size) % 2 ^ 64 }
    some { s with pq := none, sq := [], sqSize := 0 }

def readHashes (s : State) (fp : Bytes) : Option State := (bufferLines 256 fp).foldlM (readLine md5) s

/-- The program on a `relate` database from earlier runs. -/
def main (relate : OrderedMap Fp Bytes) (fp : Bytes) : Option State :=
  readHashes md5 ⟨relate, none, [], 0, title ++ [10]⟩ fp

/-! ### Lines -/

theorem readHash_tokens {tokens : List (Bytes × UInt8)} {rest : Bytes}
    (good : ∀ f ∈ tokens, IsToken f.1 ∧ (chars [':', '\t', '\n']).contains f.2 = true) (visible : (0 : UInt8) ∉ fields tokens rest) :
    readHash tokens.length (strtok (fields tokens rest) (chars [':', '\t', '\n'])) =
      (tokens.map fun f => hexByte f.1, (strtok rest (chars [':', '\t', '\n'])).map Prod.fst) := by
  induction tokens with
  | nil => rfl
  | cons f tokens ih =>
    obtain ⟨token, ended⟩ := good f List.mem_cons_self
    rw [fields_cons] at visible ⊢
    have shown : (0 : UInt8) ∉ fields tokens rest := fun zero =>
      visible (List.mem_append_right _ (List.mem_cons_of_mem _ zero))
    rw [strtok_token token.1 token.plain ended visible, List.length_cons, readHash,
      ih (fun g member => good g (List.mem_cons_of_mem _ member)) shown, List.map_cons]

theorem readChunk_tokens {tokens : List (Bytes × UInt8)} {rest : Bytes} (six : tokens.length = fpSize)
    (good : ∀ f ∈ tokens, IsToken f.1 ∧ (chars [':', '\t', '\n']).contains f.2 = true) (visible : (0 : UInt8) ∉ fields tokens rest) :
    (readChunk (fields tokens rest)).1 = Fp.ofBytes (tokens.map fun f => hexByte f.1) := by
  have hash := readHash_tokens good visible
  rw [six] at hash
  obtain ⟨f, others, rfl⟩ := List.exists_cons_of_length_pos (show 0 < tokens.length by rw [six]; decide)
  obtain ⟨token, ended⟩ := good f List.mem_cons_self
  have ended' : (chars [':', '\t', '\n', ' ']).contains f.2 = true := by
    simp only [chars, List.map_cons, List.map_nil, List.contains_cons, List.contains_nil, Bool.or_false,
      Bool.or_eq_true] at ended ⊢
    tauto
  -- The first call has the space as one more delimiter, which no token contains.
  have first : strtok (fields (f :: others) rest) (chars [':', '\t', '\n', ' ']) =
      strtok (fields (f :: others) rest) (chars [':', '\t', '\n']) := by
    rw [fields_cons] at visible ⊢
    rw [strtok_token token.1 token.2 ended' visible, strtok_token token.1 token.plain ended visible]
  rw [readChunk, first, hash]

def alphabet : Bytes := chars "0123456789abcdef:\t ".toList

theorem formatByte_alphabet (b : UInt8) : ∀ c ∈ formatByte b, c ∈ alphabet := by
  have all : ∀ n < 256, (formatByte (UInt8.ofNat n)).all alphabet.contains = true := by decide +kernel
  have byte := all b.toNat b.toNat_lt
  rw [UInt8.ofNat_toNat, List.all_eq_true] at byte
  exact fun c inside => List.contains_iff_mem.mp (byte c inside)

theorem decimal_alphabet (n : Nat) : ∀ c ∈ decimal n, c ∈ alphabet := by
  intro c inside
  have digit := decimal_digits n c inside
  simp only [UInt8.le_iff_toNat_le] at digit
  have all : ∀ k < 10, UInt8.ofNat (48 + k) ∈ alphabet := by decide +kernel
  have low : 48 ≤ c.toNat := digit.1
  have high : c.toNat ≤ 57 := digit.2
  simpa [Nat.add_sub_cancel' low] using all (c.toNat - 48) (by omega)

theorem formatNode_alphabet (x : Fp) (size : Nat) : ∀ c ∈ formatNode x size, c ∈ alphabet := by
  intro c inside
  unfold formatNode fields at inside
  simp only [List.mem_append, List.mem_cons, List.mem_flatMap] at inside
  rcases inside with ⟨f, member, token | delimiter⟩ | (tab | digit) | rest
  · obtain ⟨b, same, -⟩ := EncryptFSL.mem_hashFields member
    exact formatByte_alphabet b c (same ▸ token)
  · obtain ⟨-, -, colon | tab⟩ := EncryptFSL.mem_hashFields member
    · have ends : c = 58 := by simpa [colon] using delimiter
      rw [ends]
      decide +kernel
    · have ends : c = 9 := by simpa [tab] using delimiter
      rw [ends]
      decide +kernel
  · rw [tab]
    decide +kernel
  · exact decimal_alphabet size c digit
  · have all : ∀ c ∈ chars [' ', '\t', '\t', '\t', '1', '0'], c ∈ alphabet := by decide +kernel
    exact all c rest

theorem hexByte_hashFields (x : Fp) : (EncryptFSL.hashFields x).map (fun f => hexByte f.1) = x.bytes := by
  have tokens : (EncryptFSL.hashFields x).map Prod.fst = x.bytes.map formatByte := by
    apply List.map_fst_zip
    rw [List.length_map, x.size_eq]
    decide
  calc (EncryptFSL.hashFields x).map (fun f => hexByte f.1)
      = ((EncryptFSL.hashFields x).map Prod.fst).map hexByte := by rw [List.map_map]; rfl
    _ = x.bytes.map fun b => hexByte (formatByte b) := by rw [tokens, List.map_map]; rfl
    _ = x.bytes := (List.map_congr_left fun b _ => EncryptFSL.hexByte_formatByte b).trans (List.map_id _)

theorem readChunk_formatNode (x : Fp) (size : Nat) : (readChunk (formatNode x size ++ [10])).1 = x := by
  obtain ⟨rest, line⟩ : ∃ rest, formatNode x size ++ [10] = fields (EncryptFSL.hashFields x) rest := by
    unfold formatNode fields
    exact ⟨_, List.append_assoc _ _ _⟩
  have visible : (0 : UInt8) ∉ formatNode x size ++ [10] := by
    rw [List.mem_append, not_or]
    exact ⟨fun zero => absurd (formatNode_alphabet x size 0 zero) (by decide +kernel), by decide⟩
  rw [line] at visible ⊢
  have good : ∀ f ∈ EncryptFSL.hashFields x, IsToken f.1 ∧ (chars [':', '\t', '\n']).contains f.2 = true := by
    intro f member
    obtain ⟨b, same, delimiter⟩ := EncryptFSL.mem_hashFields member
    refine ⟨same ▸ (EncryptFSL.isToken_formatByte b).1, ?_⟩
    rcases delimiter with colon | tab
    · rw [colon]
      decide
    · rw [tab]
      decide
  rw [readChunk_tokens (EncryptFSL.length_hashFields x) good visible, hexByte_hashFields]
  exact Fp.ofBytes_bytes x

theorem isTitle_formatNode (x : Fp) (size : Nat) : isTitle (formatNode x size ++ [10]) = false := by
  have whole : cstr (formatNode x size ++ [10]) = formatNode x size ++ [10] := by
    apply cstr_of_not_mem
    rw [List.mem_append, not_or]
    exact ⟨fun zero => absurd (formatNode_alphabet x size 0 zero) (by decide +kernel), by decide⟩
  unfold isTitle strpbrk
  rw [whole, List.any_eq_false]
  have all : ∀ c ∈ alphabet ++ [10], ¬ (chars ['C', 'h', 'u', 'n', 'k']).contains c = true := by decide +kernel
  intro c inside
  rw [List.mem_append] at inside
  exact all c (List.mem_append.mpr (inside.imp_left (formatNode_alphabet x size c)))

theorem length_formatNode (x : Fp) {size : Nat} (small : size < 2 ^ 64) : (formatNode x size).length + 1 < 256 := by
  have digits := EncryptFSL.length_decimal (k := 19) (n := size) (by omega)
  have tokens : formatNode x size = EncryptFSL.chunkText x (9 :: decimal size ++ [32, 9, 9]) := by
    unfold formatNode EncryptFSL.chunkText EncryptFSL.hashFields
    simp [chars]
    rfl
  rw [tokens, EncryptFSL.length_chunkText]
  simp only [List.cons_append, List.length_cons, List.length_append, List.length_nil]
  omega

/-! ### Files -/

def printed (size : Nat) (xs : List Fp) : Bytes := ((xs.map fun x => formatNode x size).map (· ++ [10])).flatten

theorem traceOf_chunks (xs : List Fp) {size : Nat} (small : size < 2 ^ 64) : traceOf (printed size xs) = xs := by
  unfold traceOf printed chunksOf
  rw [bufferLines_flatten, List.map_map, List.filter_eq_self.mpr, List.map_map]
  · exact (List.map_congr_left fun x _ => readChunk_formatNode x size).trans (List.map_id xs)
  · intro l member
    obtain ⟨x, -, rfl⟩ := List.mem_map.mp member
    simp [isTitle_formatNode]
  · intro l member
    obtain ⟨x, -, rfl⟩ := List.mem_map.mp member
    exact length_formatNode x small
  · intro l member inside
    obtain ⟨x, -, rfl⟩ := List.mem_map.mp member
    exact absurd (formatNode_alphabet x size 10 inside) (by decide +kernel)

def Sized (lines : List Bytes) : Prop := ∀ line ∈ lines, isTitle line = false → (readChunk line).2.isSome

def encrypted (lines : List Bytes) : List Bytes :=
  (lines.filter fun line => !isTitle line).map fun line =>
    formatNode (md5 (readChunk line).1 (readChunk line).1) (toU64 (atoi ((readChunk line).2.getD [])))

/-- Under the fingerprint of an encrypted chunk is that of the chunk. -/
def recorded (relate : OrderedMap Fp Bytes) (trace : List Fp) : OrderedMap Fp Bytes :=
  trace.foldl (fun relate x => relate.put (md5 x x) x.bytes) relate

variable {md5}

theorem readLine_chunk {s : State} (idle : s.pq = none ∧ s.sq = []) {line item : Bytes} (chunk : isTitle line = false)
    (read : (readChunk line).2 = some item) : readLine md5 s line = some
      { relate := s.relate.put (md5 (readChunk line).1 (readChunk line).1) (readChunk line).1.bytes
        pq := none
        sq := []
        sqSize := 0
        out := s.out ++ (formatNode (md5 (readChunk line).1 (readChunk line).1) (toU64 (atoi item)) ++ [10]) } := by
  obtain ⟨noHeap, noQueue⟩ := idle
  unfold readLine
  rw [chunk, if_neg Bool.false_ne_true]
  cases whole : readChunk line with
  | mk hash found =>
    rw [whole] at read
    obtain rfl : found = some item := read
    simp only [noHeap, noQueue, keepLeast, processSeg, List.nil_append, List.foldl_cons, List.foldl_nil, encryptNode,
      Option.bind_eq_bind, Option.bind_some]

theorem readHashes_lines {lines : List Bytes} (sized : Sized lines) {s : State} (idle : s.pq = none ∧ s.sq = []) :
    ∃ t, lines.foldlM (readLine md5) s = some t ∧ t.relate = recorded md5 s.relate (chunksOf lines) ∧
      t.out = s.out ++ ((encrypted md5 lines).map (· ++ [10])).flatten := by
  induction lines generalizing s with
  | nil => exact ⟨s, rfl, rfl, by simp [encrypted]⟩
  | cons line lines ih =>
    have later : Sized lines := fun l member => sized l (List.mem_cons_of_mem _ member)
    rw [List.foldlM_cons]
    cases title : isTitle line with
    | true =>
      have same : readLine md5 s line = some s := by
        unfold readLine
        rw [title, if_pos rfl]
      obtain ⟨t, run, relate, out⟩ := ih later idle
      refine ⟨t, by rw [same]; exact run, ?_, ?_⟩
      · rw [relate]
        simp [chunksOf, title]
      · rw [out]
        simp [encrypted, title]
    | false =>
      obtain ⟨item, read⟩ := Option.isSome_iff_exists.mp (sized line List.mem_cons_self title)
      rw [readLine_chunk idle title read]
      obtain ⟨t, run, relate, out⟩ := ih later (s := ⟨_, none, [], 0, _⟩) ⟨rfl, rfl⟩
      refine ⟨t, run, ?_, ?_⟩
      · rw [relate]
        simp [chunksOf, recorded, title]
      · rw [out]
        simp [encrypted, title, read]

theorem traceOf_printed (lines : List Bytes) :
    traceOf ((title :: encrypted md5 lines).map (· ++ [10])).flatten = (chunksOf lines).map fun x => md5 x x := by
  have fits : ∀ l ∈ title :: encrypted md5 lines, l.length + 1 < 256 ∧ (10 : UInt8) ∉ l := by
    refine List.forall_mem_cons.mpr ⟨by decide, fun l member => ?_⟩
    obtain ⟨line, -, rfl⟩ := List.mem_map.mp member
    have small : toU64 (atoi ((readChunk line).2.getD [])) < 2 ^ 64 := by
      unfold toU64
      omega
    exact ⟨length_formatNode _ small, fun inside => absurd (formatNode_alphabet _ _ 10 inside) (by decide +kernel)⟩
  have titled : isTitle (title ++ [10]) = true := by decide +kernel
  unfold traceOf
  rw [bufferLines_flatten _ (fun l member => (fits l member).1) fun l member => (fits l member).2]
  unfold chunksOf encrypted
  rw [List.map_cons, List.filter_cons_of_neg (by simp [titled]), List.map_map, List.filter_eq_self.mpr, List.map_map, List.map_map]
  · exact List.map_congr_left fun line _ => readChunk_formatNode _ _
  · intro l member
    obtain ⟨line, -, rfl⟩ := List.mem_map.mp member
    simp [isTitle_formatNode]

theorem main_printed {fp : Bytes} (sized : Sized (bufferLines 256 fp)) (relate : OrderedMap Fp Bytes) :
    ∃ t, main md5 relate fp = some t ∧ t.relate = recorded md5 relate (traceOf fp) ∧
      traceOf t.out = (traceOf fp).map fun x => md5 x x := by
  obtain ⟨t, run, related, out⟩ := readHashes_lines sized (s := ⟨relate, none, [], 0, title ++ [10]⟩) ⟨rfl, rfl⟩
  refine ⟨t, run, related, ?_⟩
  have whole : t.out = ((title :: encrypted md5 (bufferLines 256 fp)).map (· ++ [10])).flatten := out
  rw [whole, traceOf_printed]
  rfl

theorem recorded_get {trace : List Fp} (injective : ∀ x ∈ trace, ∀ y ∈ trace, md5 x x = md5 y y → x = y)
    (relate : OrderedMap Fp Bytes) {x : Fp} (member : x ∈ trace) : (recorded md5 relate trace).get (md5 x x) = some x.bytes := by
  induction trace using List.reverseRecOn with
  | nil => cases member
  | append_singleton trace y ih =>
    unfold recorded
    rw [List.foldl_append, List.foldl_cons, List.foldl_nil, OrderedMap.get_put]
    split
    · rename_i same
      rw [injective x member y (by simp) same]
    · rename_i other
      have earlier : x ∈ trace := by
        rcases List.mem_append.mp member with before | last
        · exact before
        · exact absurd (by rw [List.mem_singleton.mp last]) other
      exact ih (fun a inside b inside' => injective a (by simp [inside]) b (by simp [inside'])) earlier

end EncryptedDedup.KMinhash
