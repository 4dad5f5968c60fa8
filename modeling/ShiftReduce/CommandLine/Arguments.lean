/-
The arguments of the command line.

An argument that starts with a dash is a switch, unless it is a dash alone, looks like a negative
number, or holds a space without naming a switch. A switch is named by a short or a long name or by
the beginning of a long name that fits no other. Its value is the next argument, or is written
behind the name: at once behind a short name, or behind an equals sign. Behind a short name that
has no value further short names may follow. Two dashes alone end the switches, and they are no
value either.

* `Switch` — what can be asked for;
* `Word` — an argument by its role, and `Word.ofArguments`;
* `Request` — what the arguments ask for;
* `Request.ofArguments` — the request of a list of arguments, or the stop that they lead to.
-/
import ShiftReduce.Text.Digit
import ShiftReduce.Text.Quoted
import ShiftReduce.Text.Segment

namespace ShiftReduce.CommandLine

/-- What can be asked for beside the grammar file. -/
inductive Switch where
  /-- Show the help and do nothing else. -/
  | help
  /-- Run a text through the parser. -/
  | input
  /-- Let state 0 hold every production. -/
  | fullInitialState
  /-- Write listings to a file. -/
  | debugFile
  deriving DecidableEq, Repr

namespace Switch

/-- The names and what they stand for. -/
def names : List (String × Switch) :=
  [("-h", help), ("--help", help), ("-i", input), ("--input", input),
    ("--full-initial-state", fullInitialState), ("--debugfile", debugFile)]

/-- The switch of a name. -/
def ofName? (name : String) : Option Switch := names.lookup name

/-- All names of a switch. -/
def title (s : Switch) : String :=
  "/".intercalate ((names.filter fun n => n.2 = s).map Prod.fst)

/-- Whether a switch has a value. -/
def takesValue : Switch → Bool
  | input | debugFile => true
  | help | fullInitialState => false

end Switch

/-- Why arguments are refused. -/
inductive Refusal where
  /-- An abbreviation fits several names. -/
  | ambiguous (argument : String) (names : List String)
  /-- The grammar file is missing. -/
  | missingFile
  /-- A switch lacks its value. -/
  | missingValue (s : Switch)
  /-- A switch that has no value is given one. -/
  | extraValue (s : Switch) (value : String)
  /-- Some arguments mean nothing. -/
  | unknown (arguments : List String)
  deriving DecidableEq, Repr

/-- The wording of a refusal. -/
def Refusal.message : Refusal → String
  | ambiguous argument names =>
    "ambiguous option: " ++ argument ++ " could match " ++ ", ".intercalate names
  | missingFile => "the following arguments are required: file"
  | missingValue s => "argument " ++ s.title ++ ": expected one argument"
  | extraValue s value =>
    "argument " ++ s.title ++ ": ignored explicit argument " ++ Text.quoted value
  | unknown arguments => "unrecognized arguments: " ++ Text.unwords arguments

/-! ### Words -/

/-- What is written behind a switch's name in the same argument. -/
inductive Attached where
  | nothing
  /-- A text behind a short name, with or without an equals sign between them. -/
  | joined (text : List Char)
  /-- A text behind a long name and an equals sign; also no text behind a short name and an equals
  sign. -/
  | marked (text : List Char)
  deriving DecidableEq, Repr

/-- An argument by its role. -/
inductive Word where
  | plain (text : String)
  /-- The end of the switches. -/
  | stop
  /-- A switch, and what is attached to it. -/
  | switch (s : Switch) (attached : Attached)
  /-- An argument that looks like a switch and is none. -/
  | unknown (text : String)
  deriving DecidableEq, Repr

/-- A text up to its first equals sign, and what is behind the sign if there is one. -/
def splitMark : List Char → List Char × Option (List Char)
  | [] => ([], none)
  | c :: cs =>
    if c = '=' then ([], some cs)
    else
      let (name, value) := splitMark cs
      (c :: name, value)

/-- Digits, at least one. -/
def isDigits (cs : List Char) : Bool := !cs.isEmpty && cs.all Text.isDigit

/-- What is left of a text without a line end that it ends with. -/
def dropLineEnd (cs : List Char) : List Char :=
  if cs.getLast? = some '\n' then cs.dropLast else cs

/-- A dash and a number, with or without a point and digits before it; a line end may follow. -/
def isNegativeNumber (cs : List Char) : Bool :=
  match dropLineEnd cs with
  | '-' :: number =>
    isDigits number ||
      match number.dropWhile Text.isDigit with
      | '.' :: fraction => isDigits fraction
      | _ => false
  | _ => false

/-- The switches whose long name starts with a text. -/
def abbreviated (text : List Char) : List (String × Switch) :=
  Switch.names.filter fun n => text.isPrefixOf n.1.toList

/-- The role of an argument that starts with a dash and is no switch. -/
def strangeWord (cs : List Char) : Word :=
  if isNegativeNumber cs || ' ' ∈ cs then .plain (String.ofList cs) else .unknown (String.ofList cs)

/-- The role of an argument that starts with two dashes and is no name: an abbreviation, or
nothing known. -/
def longWord (cs : List Char) : Except Refusal Word :=
  let (text, value) := splitMark cs
  match abbreviated text with
  | [] => .ok (strangeWord cs)
  | [(_, s)] => .ok (.switch s (value.elim .nothing .marked))
  | several => .error (.ambiguous (String.ofList cs) (several.map Prod.fst))

/-- The role of an argument that starts with one dash and `c`, and is no name. -/
def shortWord (c : Char) (cs : List Char) : Word :=
  match Switch.ofName? (String.ofList ['-', c]) with
  | some s => .switch s (.joined cs)
  | none => strangeWord ('-' :: c :: cs)

/-- What is attached to a name by an equals sign. A short name has two characters. -/
def attach (name value : List Char) : Attached :=
  if name.length = 2 ∧ value ≠ [] then .joined value else .marked value

/-- The role of an argument before the end of the switches. -/
def wordOf (argument : String) : Except Refusal Word :=
  match argument.toList with
  | '-' :: c :: cs =>
    match Switch.ofName? argument, splitMark ('-' :: c :: cs) with
    | some s, _ => .ok (.switch s .nothing)
    | none, (name, value) =>
      match value, Switch.ofName? (String.ofList name) with
      | some value, some s => .ok (.switch s (attach name value))
      | _, _ => if c = '-' then longWord ('-' :: c :: cs) else .ok (shortWord c cs)
  | _ => .ok (.plain argument)

/-- The arguments by their roles: behind two dashes alone there are no switches. -/
def Word.ofArguments : List String → Except Refusal (List Word)
  | [] => .ok []
  | argument :: rest => do
    if argument = "--" then return .stop :: rest.map .plain
    else
      let word ← wordOf argument
      return word :: (← ofArguments rest)

/-! ### Requests -/

/-- What the parser is to be run over. -/
inductive Input where
  /-- The parser is not to be run. -/
  | nothing
  | text (s : String)
  /-- Two dashes in the place of a text. -/
  | noText
  deriving DecidableEq, Repr

/-- What the arguments ask for. -/
structure Request where
  file : String
  input : Input
  fullInitialState : Bool
  debugFile : Option String
  deriving DecidableEq, Repr

/-- What ends the reading of arguments early. -/
inductive Stop where
  | help
  | refused (r : Refusal)
  deriving DecidableEq, Repr

/-- A switch and its value, if it has one. -/
abbrev Setting := Switch × Option String

/-- The settings that one argument makes, and the switch at its end that takes the next argument as
its value, if there is one. -/
abbrev Settled := List Setting × Option Switch

/-- The value that an attached text is; two dashes alone are none. -/
def valueOf (text : List Char) : Option String :=
  if text = ['-', '-'] then none else some (String.ofList text)

/-- The settings of a switch with a value behind an equals sign. -/
def settleMarked (s : Switch) (value : List Char) : Except Stop Settled :=
  if s.takesValue then .ok ([(s, valueOf value)], none)
  else .error (.refused (.extraValue s (String.ofList value)))

/-- The settings of a switch with a text behind its short name. The text is the value of a switch
that takes one. Behind another switch each of its characters names a switch, until one takes what
is left as its value; a character that names none is refused together with the rest. -/
def settleJoined (s : Switch) : List Char → Except Stop Settled
  | [] => .ok (if s.takesValue then ([], some s) else ([(s, none)], none))
  | c :: cs =>
    if s.takesValue then .ok ([(s, valueOf (c :: cs))], none)
    else
      match Switch.ofName? (String.ofList ['-', c]) with
      | none => .error (.refused (.extraValue s (String.ofList (c :: cs))))
      | some t => do
        let (settings, waiting) ← settleJoined t cs
        return ((s, none) :: settings, waiting)

/-- The settings of a switch and what is attached to it. -/
def settle (s : Switch) : Attached → Except Stop Settled
  | .nothing => settleJoined s []
  | .joined text => settleJoined s text
  | .marked value => settleMarked s value

/-- What the arguments so far ask for, and those that mean nothing. -/
structure Reading where
  file : Option String
  input : Input
  fullInitialState : Bool
  debugFile : Option String
  unknown : List String

namespace Reading

/-- Nothing is read. -/
def start : Reading := ⟨none, .nothing, false, none, []⟩

/-- The reading with more arguments that mean nothing. -/
def reject (r : Reading) (arguments : List String) : Reading :=
  { r with unknown := r.unknown ++ arguments }

/-- The reading after a setting. -/
def obey (r : Reading) : Setting → Except Stop Reading
  | (.help, _) => .error .help
  | (.input, value) => .ok { r with input := value.elim .noText .text }
  | (.fullInitialState, _) => .ok { r with fullInitialState := true }
  | (.debugFile, value) => .ok { r with debugFile := value }

/-- The reading after further words. A switch that waits for its value needs a plain word next, and
the settings before it in its argument are obeyed together with it. The first plain word that is no
value is the file, and a stop on one side of it belongs to it. -/
def read (r : Reading) : Option (List Setting × Switch) → List Word → Except Stop Reading
  | some (settings, s), .plain value :: words => do
    read (← (settings ++ [(s, some value)]).foldlM obey r) none words
  | some (_, s), _ => .error (.refused (.missingValue s))
  | none, [] => .ok r
  | none, .switch s attached :: words => do
    match ← settle s attached with
    | (settings, none) => read (← settings.foldlM obey r) none words
    | (settings, some t) => read r (some (settings, t)) words
  | none, .unknown text :: words => read (r.reject [text]) none words
  | none, .stop :: .plain text :: words =>
    if r.file.isNone then read { r with file := some text } none words
    else read (r.reject ["--", text]) none words
  | none, .stop :: words => read (r.reject ["--"]) none words
  | none, .plain text :: .stop :: words =>
    if r.file.isNone then read { r with file := some text } none words
    else read (r.reject [text, "--"]) none words
  | none, .plain text :: words =>
    if r.file.isNone then read { r with file := some text } none words
    else read (r.reject [text]) none words

end Reading

/-- The request of a list of arguments. -/
def Request.ofArguments (arguments : List String) : Except Stop Request :=
  match Word.ofArguments arguments with
  | .error refusal => .error (.refused refusal)
  | .ok words => do
    let r ← Reading.start.read none words
    match r.file with
    | none => .error (.refused .missingFile)
    | some file =>
      if r.unknown.isEmpty then return ⟨file, r.input, r.fullInitialState, r.debugFile⟩
      else .error (.refused (.unknown r.unknown))

end ShiftReduce.CommandLine
