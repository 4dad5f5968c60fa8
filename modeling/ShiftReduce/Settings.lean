/-
How a compilation is set up.

Settings have defaults, and each of them may be changed for one compilation or left as it is.

* `Settings` — where messages go, where listings are written, and what state 0 holds;
* `Change`, `Changes`, `Settings.change` — settings with some of them changed;
* `Failure` — why a compilation that writes listings fails;
* `Compilation` — what came of a text, and what was said on the way;
* `Settings.compile` — the compilation of a text, writing the listings if asked to.
-/
import ShiftReduce.Compiler
import ShiftReduce.Files

namespace ShiftReduce

/-- A setting that may be left as it is. -/
inductive Change (α : Type) where
  | keep
  | assign (value : α)

/-- A setting that is left as it is, as it is shown. -/
def Change.keepText : String := "<MISSING>"

/-- The value after a change. -/
def Change.apply {α : Type} (old : α) : Change α → α
  | keep => old
  | assign value => value

/-- Settings of a compilation, with messages going to a place named by `σ`. -/
structure Settings (σ : Type) where
  /-- Where messages go. -/
  log : σ
  /-- The file that listings are written to; none, or no name, for none. -/
  debugFile : Option String
  /-- Whether state 0 holds every production; none counts as no. -/
  fullInitialState : Option Bool

/-- Changes of settings. -/
structure Changes (σ : Type) where
  /-- Where messages go; no place leaves it as it is. -/
  log : Change (Option σ)
  debugFile : Change (Option String)
  fullInitialState : Change (Option Bool)

/-- Why a compilation fails. -/
inductive Failure where
  /-- The text does not compile. -/
  | fault (f : Fault)
  /-- A file cannot be read or written. -/
  | file (f : FileFault)

/-- The wording of a failure. -/
def Failure.message : Failure → String
  | fault f => f.message
  | file f => f.message

/-- What came of a text, and what was said on the way. -/
structure Compilation where
  warnings : List Warning
  /-- The warnings and further messages, as they were logged. -/
  entries : List Log.Entry
  outcome : Except Failure Compiled

namespace Settings

variable {σ : Type}

/-- The settings if nothing is said: no listings, and only the closure of the start item. -/
def standard (log : σ) : Settings σ := ⟨log, none, some false⟩

/-- The settings after changes. -/
def change (s : Settings σ) (c : Changes σ) : Settings σ where
  log := (c.log.apply none).getD s.log
  debugFile := c.debugFile.apply s.debugFile
  fullInitialState := c.fullInitialState.apply s.fullInitialState

/-- The name of the file that listings are written to. -/
def listingName? (s : Settings σ) : Option String := s.debugFile.filter fun name => !name.isEmpty

/-- Whether state 0 holds every production. -/
def isFull (s : Settings σ) : Bool := s.fullInitialState.getD false

/-- The compilation of a text. Listings are written last, and only of a text that compiles. -/
def compile {m : Type → Type} [Monad m] (s : Settings σ) (files : FileAccess m) (text : String) :
    m Compilation := do
  let (warnings, outcome) := ShiftReduce.compile s.isFull text
  let entries := warnings.map Warning.entry
  match outcome with
  | .error fault => return ⟨warnings, entries, .error (.fault fault)⟩
  | .ok c =>
    match s.listingName?, c.debugText with
    | none, _ => return ⟨warnings, entries, .ok c⟩
    | some _, .error fault => return ⟨warnings, entries, .error (.fault fault)⟩
    | some name, .ok listing => do
      match ← files.write name listing with
      | .error fault => return ⟨warnings, entries, .error (.file fault)⟩
      | .ok _ =>
        let written : Log.Entry := ⟨.info, "Grammar debugging written to " ++ name⟩
        return ⟨warnings, entries ++ [written], .ok c⟩

end Settings

end ShiftReduce
