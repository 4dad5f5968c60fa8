/-
Rules of a grammar and their texts.

* `Rule` — a name and the symbols that may stand for it;
* `Production` — a rule with its number in a grammar;
* `Rule.text` — a rule as it is written, the empty right side as the mark of the empty string;
* `Rule.dotted` — a rule with a dot among the symbols of its right side.
-/
import ShiftReduce.Symbol
import ShiftReduce.Text.Quoted
import ShiftReduce.Text.Segment

namespace ShiftReduce

/-- A rule: its name, on the left side, may be replaced by the symbols of its right side. -/
structure Rule where
  name : Symbol
  rhs : List Symbol
  deriving DecidableEq, Repr

/-- A rule of a grammar, with the number that reductions name it by. -/
structure Production extends Rule where
  number : Nat
  deriving DecidableEq, Repr

namespace Rule

/-- The right side as it is written. -/
def rhsText (r : Rule) : String :=
  if r.rhs.isEmpty then Symbol.empty else Text.unwords r.rhs

/-- The rule as it is written. -/
def text (r : Rule) : String := r.name ++ " -> " ++ r.rhsText

/-- The rule with a dot behind the first `dot` symbols of its right side. -/
def dotted (r : Rule) (dot : Nat) : String :=
  r.name ++ " -> " ++ Text.unwords (r.rhs.take dot ++ Symbol.dot :: r.rhs.drop dot)

/-- The rule as a pair of its quoted name and its quoted symbols; a single symbol is followed by
a comma. -/
def pairText (r : Rule) : String :=
  let symbols :=
    match r.rhs with
    | [s] => Text.quoted s ++ ","
    | rhs => ", ".intercalate (rhs.map Text.quoted)
  "(" ++ Text.quoted r.name ++ ", (" ++ symbols ++ "))"

end Rule

/-- The production as a value is shown. -/
def Production.shown (p : Production) : String := "Production(" ++ p.text ++ ")"

end ShiftReduce
