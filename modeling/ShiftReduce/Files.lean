/-
Files by name.

Programs read and write files through `FileAccess`, in whatever monad the files live. A directory
of files alone, without further directories in it, is one place for them to live.

* `FileFault` — why a file cannot be read or written, and `FileFault.message`;
* `FileAccess` — reading and writing by path;
* `Directory` — a directory that holds files only, and `Directory.read?`, `Directory.write?`;
* `Directory.read?_write?` — what was written to a path is read from it;
* `Directory.access` — access to a directory that a program carries along.
-/
import ShiftReduce.Assoc
import ShiftReduce.Text.Quoted
import ShiftReduce.Text.Utf8

namespace ShiftReduce

/-- Why a path leads to no file. -/
inductive PathCause where
  | missing
  | notDirectory
  | isDirectory
  | nameTooLong
  deriving DecidableEq, Repr

/-- The number and the wording of a cause. -/
def PathCause.message : PathCause → String
  | missing => "[Errno 2] No such file or directory"
  | notDirectory => "[Errno 20] Not a directory"
  | isDirectory => "[Errno 21] Is a directory"
  | nameTooLong => "[Errno 36] File name too long"

/-- Why a file cannot be read or written. -/
inductive FileFault where
  /-- The path leads to no file. -/
  | path (cause : PathCause) (path : String)
  /-- The path holds a character that no path can hold. -/
  | nullCharacter
  /-- What the file holds is no text. -/
  | notText (fault : Text.Utf8.Fault)
  /-- Something else, in the words of who reported it. -/
  | other (message : String)
  deriving DecidableEq, Repr

namespace FileFault

/-- The wording of a fault. -/
def message : FileFault → String
  | path cause name => cause.message ++ ": " ++ Text.quoted name
  | nullCharacter => "embedded null byte"
  | notText fault => fault.message
  | other text => text

/-- Whether the fault lies with the files and not with a path or a content that cannot be. -/
def isOfSystem : FileFault → Bool
  | path _ _ | other _ => true
  | nullCharacter | notText _ => false

end FileFault

/-- Reading and writing texts by path. -/
structure FileAccess (m : Type → Type) where
  read : String → m (Except FileFault String)
  write : String → String → m (Except FileFault Unit)

/-- What a file holds. -/
inductive Content where
  | text (s : String)
  | bytes (b : List UInt8)
  deriving DecidableEq, Repr

/-- A directory that holds files only. -/
abbrev Directory := Assoc String Content

namespace Directory

/-- Where a path leads. -/
inductive Place where
  /-- To a directory. -/
  | directory
  /-- To a name in the directory. -/
  | file (name : String)
  /-- To a directory of a name that is not there. -/
  | missingDirectory
  deriving DecidableEq, Repr

/-- Where the parts of a path lead from the directory. What lies outside of it is taken to be
empty. -/
def locate (d : Directory) : List String → Except PathCause Place
  | [] => .ok .directory
  | part :: rest =>
    if part = "" ∨ part = "." then locate d rest
    else if part = ".." then
      if rest.all (· ∈ ["", ".", ".."]) then .ok .directory else .error .missing
    else if 255 < part.utf8ByteSize then .error .nameTooLong
    else if rest.isEmpty then .ok (.file part)
    else if part ∈ d then .error .notDirectory
    else if rest.all (· = "") then .ok .missingDirectory
    else .error .missing

/-- The parts of a path between its slashes. -/
def parts : List Char → List (List Char)
  | [] => [[]]
  | c :: cs =>
    if c = '/' then [] :: parts cs
    else
      match parts cs with
      | [] => [[c]]
      | p :: ps => (c :: p) :: ps

/-- Where a path leads; a path from the root leads out of the directory. -/
def find (d : Directory) (path : String) : Except FileFault Place :=
  let ps := (parts path.toList).map String.ofList
  if path.toList.any (· = '\x00') then .error .nullCharacter
  else if path.isEmpty then .error (.path .missing path)
  else if 4096 ≤ path.utf8ByteSize then .error (.path .nameTooLong path)
  else if ps.head? = some "" ∧ ¬ps.all (· = "") then .error (.path .missing path)
  else
    match locate d ps with
    | .ok place => .ok place
    | .error cause => .error (.path cause path)

/-- The text of the file that a path leads to. -/
def read? (d : Directory) (path : String) : Except FileFault String := do
  match ← d.find path with
  | .directory => .error (.path .isDirectory path)
  | .missingDirectory => .error (.path .missing path)
  | .file name =>
    match d.find? name with
    | none => .error (.path .missing path)
    | some (.text s) => return s
    | some (.bytes b) =>
      match Text.Utf8.decode b with
      | .ok s => return s
      | .error fault => .error (.notText fault)

/-- The directory after a text was written to the file that a path leads to. -/
def write? (d : Directory) (path text : String) : Except FileFault Directory := do
  match ← d.find path with
  | .directory | .missingDirectory => .error (.path .isDirectory path)
  | .file name => return d.insert name (.text text)

/-- Where a path leads to a file does not hang on what the directory holds. -/
theorem locate_eq_file {d d' : Directory} {ps : List String} {name : String}
    (h : locate d ps = .ok (.file name)) : locate d' ps = .ok (.file name) := by
  induction ps with
  | nil => cases h
  | cons part rest ih =>
    rw [locate] at h ⊢
    split at h
    · next hp => rw [if_pos hp, ih h]
    · next hp =>
      rw [if_neg hp]
      split at h
      · split at h <;> cases h
      · next hq =>
        rw [if_neg hq]
        split at h
        · cases h
        · next hl =>
          rw [if_neg hl]
          split at h
          · next hr => rw [if_pos hr, h]
          · split at h
            · cases h
            · split at h <;> cases h

theorem find_eq_file {d d' : Directory} {path name : String}
    (h : d.find path = .ok (.file name)) : Directory.find d' path = .ok (.file name) := by
  unfold Directory.find at h ⊢
  dsimp only at h ⊢
  split at h
  · cases h
  · next h0 =>
    rw [if_neg h0]
    split at h
    · cases h
    · next h1 =>
      rw [if_neg h1]
      split at h
      · cases h
      · next h2 =>
        rw [if_neg h2]
        split at h
        · cases h
        · next h3 =>
          rw [if_neg h3]
          split at h
          · next place hl =>
            obtain rfl := Except.ok.inj h
            rw [locate_eq_file hl]
          · cases h

/-- What was written to a path is read from it. -/
theorem read?_write? {d d' : Directory} {path text : String} (h : d.write? path text = .ok d') :
    d'.read? path = .ok text := by
  unfold write? at h
  cases hf : d.find path with
  | error fault => rw [hf] at h; cases h
  | ok place =>
    rw [hf] at h
    cases place with
    | directory => cases h
    | missingDirectory => cases h
    | file name =>
      obtain rfl := Except.ok.inj h
      unfold read?
      rw [find_eq_file hf]
      show (match (Assoc.insert d name (.text text)).find? name with
        | none => _ | some (.text s) => _ | some (.bytes b) => _) = _
      rw [Assoc.insert, Assoc.find?_alter, if_pos rfl]
      rfl

/-- Access to a directory that a program carries along. -/
def access : FileAccess (StateM Directory) where
  read path := return (← get).read? path
  write path text := do
    match (← get).write? path text with
    | .error fault => return .error fault
    | .ok d => do
      set d
      return .ok ()

end Directory

end ShiftReduce
