import EncryptedDedup.Trace

/-!
# Traces with a list of files

`readInChunkToDBsFileType` and `readChunksFile` read a trace along with a list of the files it
consists of. The list has two lines for each file: its type, and how many chunks are its own.
-/

namespace EncryptedDedup.TypeList

inductive Stop where
  /-- The type does not fit `typeBuffer[50]`. -/
  | typeBuffer
  /-- `typeName` was built from a null pointer. -/
  | nullType
  /-- `atoi` was called with a null pointer: there is no number of chunks. -/
  | nullNumber
  /-- `atoi` was called with a null pointer: there is no chunk size. -/
  | nullSize
  /-- The program printed "insert key error" and exited. -/
  | insertKeyError
  deriving DecidableEq

def delims : Bytes := chars [':', '\t', '\n']

/-- The type of a file and its number of chunks. -/
def fileOf (typeBuffer typeNumBuffer : Bytes) : Except Stop (Bytes × Nat) :=
  if 50 ≤ typeBuffer.length then .error .typeBuffer
  else
    match strtok typeBuffer delims, strtok typeNumBuffer delims with
    | none, _ => .error .nullType
    | some _, none => .error .nullNumber
    | some (itemN, _), some (tmp, _) => .ok (itemN, toU64 (atoi tmp))

/-- The loop over the lines of the list, the first argument being what is in `typeNumBuffer`: a type
without a number gets the number of the file before. -/
def readFiles {σ : Type} (readFile : σ → Bytes × Nat → Except Stop σ) : Bytes → List Bytes → σ → Except Stop σ
  | _, [], s => .ok s
  | typeNumBuffer, [typeBuffer], s => do
    let file ← fileOf typeBuffer typeNumBuffer
    readFile s file
  | _, typeBuffer :: typeNumBuffer :: rest, s => do
    let file ← fileOf typeBuffer typeNumBuffer
    let s ← readFile s file
    readFiles readFile (strtokLeft typeNumBuffer delims) rest s

/-- The lines of the trace that are still to be read, and `read_buffer`. -/
structure Reader where
  lines : List Bytes
  readBuffer : Bytes

/-- The first line has been skipped as a title; it is still in the buffer. -/
def Reader.start (fp : Bytes) : Reader := ⟨(bufferLines 256 fp).tail, (bufferLines 256 fp).headD []⟩

/-- What `fgets` leaves in the buffer: at the end of the trace, what was in it before. -/
def Reader.buffer (r : Reader) : Bytes := r.lines.headD r.readBuffer

/-- After the line is read, the buffer has a zero byte behind its first token. -/
def Reader.next (r : Reader) : Reader := ⟨r.lines.tail, strtokLeft r.buffer (chars [':', '\t', '\n', ' '])⟩

/-! ### The files of a list -/

/-- The files that the loop gets to; a list that stops the program has no more of them. -/
def listedFiles : Bytes → List Bytes → List (Bytes × Nat)
  | _, [] => []
  | typeNumBuffer, [typeBuffer] => (fileOf typeBuffer typeNumBuffer).toOption.toList
  | _, typeBuffer :: typeNumBuffer :: rest =>
    match fileOf typeBuffer typeNumBuffer with
    | .error _ => []
    | .ok file => file :: listedFiles (strtokLeft typeNumBuffer delims) rest

variable {σ : Type} {readFile : σ → Bytes × Nat → Except Stop σ}

theorem readFiles_ok (typeNumBuffer : Bytes) (typeLines : List Bytes) {s s' : σ}
    (finished : readFiles readFile typeNumBuffer typeLines s = .ok s') :
    (listedFiles typeNumBuffer typeLines).foldlM readFile s = .ok s' := by
  induction typeNumBuffer, typeLines using listedFiles.induct generalizing s with
  | case1 => exact finished
  | case2 typeNumBuffer typeBuffer =>
    rw [readFiles] at finished
    rw [listedFiles]
    cases file : fileOf typeBuffer typeNumBuffer with
    | error stop =>
      rw [file] at finished
      cases finished
    | ok file' =>
      rw [file] at finished
      exact (bind_pure _).trans finished
  | case3 _ typeBuffer typeNumBuffer rest stop file =>
    rw [readFiles, file] at finished
    cases finished
  | case4 _ typeBuffer typeNumBuffer rest file' file ih =>
    rw [readFiles, file] at finished
    rw [listedFiles, file]
    dsimp only
    rw [List.foldlM_cons]
    change (readFile s file' >>= fun s => readFiles readFile (strtokLeft typeNumBuffer delims) rest s) = _ at finished
    cases first : readFile s file' with
    | error stop =>
      rw [first] at finished
      cases finished
    | ok s₁ =>
      rw [first] at finished
      exact ih finished

/-! ### Well-formed lists -/

inductive Lists : List Bytes → List (Bytes × Nat) → Prop
  | nil : Lists [] []
  | file {typeLine numLine itemN tmp rest rest' : Bytes} {lines : List Bytes} {files : List (Bytes × Nat)}
      (type : strtok typeLine delims = some (itemN, rest)) (number : strtok numLine delims = some (tmp, rest'))
      (digits : ∀ c ∈ tmp, 48 ≤ c ∧ c ≤ 57) (others : Lists lines files) :
      Lists (typeLine :: numLine :: lines) ((itemN, readMagnitude 10 tmp) :: files)

def typeLines : List Bytes → List Bytes
  | [] => []
  | [typeLine] => [typeLine]
  | typeLine :: _ :: lines => typeLine :: typeLines lines

theorem Lists.length_le {lines : List Bytes} {files : List (Bytes × Nat)} (lists : Lists lines files) :
    files.length ≤ lines.length := by
  induction lists with
  | nil => exact Nat.le_refl 0
  | file _ _ _ _ ih =>
    simp only [List.length_cons]
    omega

theorem fileOf_listed {typeLine numLine itemN tmp rest rest' : Bytes} (type : strtok typeLine delims = some (itemN, rest))
    (number : strtok numLine delims = some (tmp, rest')) (digits : ∀ c ∈ tmp, 48 ≤ c ∧ c ≤ 57) :
    fileOf typeLine numLine =
      if 50 ≤ typeLine.length then .error .typeBuffer else .ok (itemN, readAsInt (readMagnitude 10 tmp)) := by
  rw [fileOf, type, number]
  dsimp only
  rw [toU64_atoi digits]

theorem Lists.readFiles {lines : List Bytes} {files : List (Bytes × Nat)} (lists : Lists lines files)
    (fit : ∀ line ∈ typeLines lines, line.length < 50) (typeNumBuffer : Bytes) (s : σ) :
    readFiles readFile typeNumBuffer lines s = (files.map fun f => (f.1, readAsInt f.2)).foldlM readFile s := by
  induction lists generalizing typeNumBuffer s with
  | nil => rfl
  | @file typeLine numLine itemN tmp rest rest' lines files type number digits others ih =>
    have file := fileOf_listed type number digits
    rw [if_neg (Nat.not_le.mpr (fit typeLine List.mem_cons_self))] at file
    rw [TypeList.readFiles, file, List.map_cons, List.foldlM_cons]
    change (readFile s (itemN, readAsInt (readMagnitude 10 tmp)) >>= _) = _
    congr 1
    funext s₁
    exact ih (fun line member => fit line (List.mem_cons_of_mem _ member)) _ s₁

/-- A run ends at a type that does not fit its buffer. -/
theorem Lists.fit {lines : List Bytes} {files : List (Bytes × Nat)} (lists : Lists lines files)
    {typeNumBuffer : Bytes} {s s' : σ} (finished : TypeList.readFiles readFile typeNumBuffer lines s = .ok s') :
    ∀ line ∈ typeLines lines, line.length < 50 := by
  induction lists generalizing typeNumBuffer s with
  | nil => exact fun _ member => absurd member List.not_mem_nil
  | @file typeLine numLine itemN tmp rest rest' lines files type number digits others ih =>
    rw [TypeList.readFiles, fileOf_listed type number digits] at finished
    split at finished
    · cases finished
    · rename_i short
      change (readFile s (itemN, readAsInt (readMagnitude 10 tmp)) >>= fun s =>
        TypeList.readFiles readFile (strtokLeft numLine delims) lines s) = _ at finished
      cases first : readFile s (itemN, readAsInt (readMagnitude 10 tmp)) with
      | error stop =>
        rw [first] at finished
        cases finished
      | ok s₁ =>
        rw [first] at finished
        exact List.forall_mem_cons.mpr ⟨Nat.not_le.mp short, ih finished⟩

end EncryptedDedup.TypeList
