/-
Grammars as texts.

A rule is written `NAME -> symbols | symbols`. Rules follow one another without a mark between
them: a run of letters A to Z before an arrow begins the next one. A run of such letters is one
symbol, and so is any other run of characters up to a blank.

* `normalize` — a text with single spaces between its words, arrows and bars being words;
* `splitRules` — a normalized text cut into its rules;
* `tokens` — the symbols of one alternative;
* `readRule` — one rule, or why it is malformed;
* `Grammar.parse` — the grammar of a text, and the malformed rules, which are left out of it.
-/
import ShiftReduce.Grammar.Basic

namespace ShiftReduce

open Text

/-! ### Layout -/

/-- A text with a space on either side of every arrow and every bar. -/
def spreadMarks : List Char → List Char
  | '-' :: '>' :: cs => ' ' :: '-' :: '>' :: ' ' :: spreadMarks cs
  | '|' :: cs => ' ' :: '|' :: ' ' :: spreadMarks cs
  | c :: cs => c :: spreadMarks cs
  | [] => []

/-- A text with single spaces between its words, where every arrow and every bar stands apart. -/
def normalize (text : String) : String :=
  unwords ((words (spreadMarks text.toList)).map String.ofList)

/-! ### Rules -/

/-- A text that begins with letters A to Z, at least one, a space and an arrow. -/
def beginsRule (cs : List Char) : Bool :=
  !(cs.takeWhile Char.isUpper).isEmpty && " ->".toList.isPrefixOf (cs.dropWhile Char.isUpper)

/-- A text cut at every space before a rule's beginning. -/
def cutRules : List Char → List (List Char)
  | [] => [[]]
  | c :: cs =>
    if c = ' ' && beginsRule cs then [] :: cutRules cs else consFirst c (cutRules cs)

/-- The rules of a text; an empty text has none. -/
def splitRules (text : String) : List String :=
  if text.isEmpty then [] else (cutRules text.toList).map String.ofList

/-- The symbols of an alternative: spaces end a symbol, and so does a change between the letters A
to Z and other characters. -/
def tokens (cs : List Char) : List Symbol :=
  (segments (· = ' ') (fun c d => c.isUpper == d.isUpper) cs).map String.ofList

/-- Why a rule is malformed. -/
inductive MalformedCause where
  | noArrow
  | severalArrows
  | noLeftSide
  | noRightSide
  /-- The left side is no non-terminal. -/
  | illegalLeftSide (text : String)
  /-- A right side holds the mark for the end of the input. -/
  | reservedMark
  deriving DecidableEq, Repr

/-- The wording of a cause. -/
def MalformedCause.message : MalformedCause → String
  | noArrow => "Missing '->'"
  | severalArrows => "More than one '->' in a single rule"
  | noLeftSide => "Missing left-hand side"
  | noRightSide => "Missing right-hand side"
  | illegalLeftSide text => "Left-hand side " ++ quoted text ++ " is not a non-terminal"
  | reservedMark => quoted Symbol.endMark ++ " is reserved for the end of input"

/-- A rule that could not be read. -/
structure Malformed where
  rule : String
  cause : MalformedCause
  deriving DecidableEq, Repr

/-- A text cut at every arrow. -/
def cutArrows : List Char → List (List Char)
  | '-' :: '>' :: cs => [] :: cutArrows cs
  | c :: cs => consFirst c (cutArrows cs)
  | [] => [[]]

/-- A text cut at every bar. -/
def cutBars : List Char → List (List Char)
  | '|' :: cs => [] :: cutBars cs
  | c :: cs => consFirst c (cutBars cs)
  | [] => [[]]

/-- The symbols of one alternative, without the marks of the empty string. -/
def readAlternative (cs : List Char) : List Symbol := (tokens (trim cs)).filter (· ≠ Symbol.empty)

/-- The rules that one rule text stands for, one for each alternative. -/
def readRule (cs : List Char) : Except MalformedCause (List Rule) :=
  match cutArrows cs with
  | [left, right] =>
    let left := trim left
    let right := trim right
    let name : Symbol := String.ofList left
    if left.isEmpty then .error .noLeftSide
    else if right.isEmpty then .error .noRightSide
    else if !name.isNonterminal then .error (.illegalLeftSide name)
    else
      let alternatives := (cutBars right).map readAlternative
      if alternatives.any (Symbol.endMark ∈ ·) then .error .reservedMark
      else .ok (alternatives.map (Rule.mk name))
  | [] | [_] => .error .noArrow
  | _ => .error .severalArrows

/-! ### Grammars -/

/-- A rule text read into a grammar, or put with the malformed ones. -/
def Grammar.read (state : Grammar × List Malformed) (rule : String) : Grammar × List Malformed :=
  match readRule rule.toList with
  | .ok rs => (rs.foldl Grammar.push state.1, state.2)
  | .error cause => (state.1, state.2 ++ [⟨rule, cause⟩])

/-- The grammar of a text, and the rules of the text that are malformed. -/
def Grammar.parse (text : String) : Grammar × List Malformed :=
  (splitRules (normalize text)).foldl Grammar.read (∅, [])

end ShiftReduce
