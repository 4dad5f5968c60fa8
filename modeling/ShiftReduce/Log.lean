/-
Messages of a compilation.

* `Log.Level` — how grave a message is, and `Level.mark`, what its line starts with;
* `Log.Entry`, `Log.text` — messages, and the lines that they are written as;
* `Warning` — what a compilation warns of, and `Warning.message`.
-/
import ShiftReduce.Grammar.RuleText
import ShiftReduce.Table.Basic
import ShiftReduce.Text.Template

namespace ShiftReduce

namespace Log

/-- How grave a message is. -/
inductive Level where
  | debug
  | info
  | warning
  | error
  | critical
  deriving DecidableEq, Repr

/-- What a message's line starts with. -/
def Level.mark : Level → String
  | debug | info => ""
  | warning => "WARNING: "
  | error | critical => "ERROR: "

/-- A message. -/
structure Entry where
  level : Level
  text : String
  deriving DecidableEq, Repr

/-- A message as a line. -/
def Entry.line (e : Entry) : String := e.level.mark ++ e.text ++ "\n"

/-- The message of a template and its arguments. -/
def Entry.ofTemplate (level : Level) (template : String) (arguments : List Text.Template.Argument) :
    Except Text.Template.Fault Entry :=
  return ⟨level, ← Text.Template.fill template arguments⟩

/-- Messages as lines. -/
def text (entries : List Entry) : String := String.join (entries.map Entry.line)

end Log

/-- What a compilation warns of. -/
inductive Warning where
  /-- A rule was left out. -/
  | malformed (rule : Malformed)
  /-- A non-terminal has no production. -/
  | undefined (symbol : Symbol) (use : Production)
  /-- A production repeats an earlier one. -/
  | duplicate (production : Production)
  /-- No derivation from the start symbol meets a non-terminal. -/
  | unreachable (symbol : Symbol)
  /-- No text of terminals can be derived from a non-terminal. -/
  | endless (symbol : Symbol)
  /-- A cell holds several actions. -/
  | conflict (state : Nat) (symbol : Symbol) (actions : List (Action Nat))
  /-- There are cells that hold several actions. -/
  | conflicts (count : Nat)

namespace Warning

/-- The wording of a warning. -/
def message : Warning → String
  | malformed m =>
    "Skipping malformed rule " ++ Text.quoted m.rule ++ ": " ++ m.cause.message
  | undefined symbol p =>
    "Symbol " ++ Text.quoted symbol ++ " used in rule (" ++ p.text
      ++ "), but not defined by any rule"
  | duplicate p => "Duplicate rule " ++ toString p.number ++ " (" ++ p.text ++ ")"
  | unreachable symbol => "Symbol " ++ Text.quoted symbol ++ " is unreachable"
  | endless symbol => "Infinite recursion detected for symbol " ++ Text.quoted symbol
  | conflict state symbol actions =>
    "Conflict for " ++ Text.quoted symbol ++ " in state " ++ toString state ++ ": "
      ++ cellText actions
  | conflicts count => toString count ++ if count = 1 then " conflict" else " conflicts"

/-- A warning as a message. -/
def entry (w : Warning) : Log.Entry := ⟨.warning, w.message⟩

end Warning

end ShiftReduce
