/-
What can go wrong.

* `Fault` — the causes, from an empty grammar to a look-up of something that is not there;
* `Fault.Kind`, `Fault.kind` — the families of causes that callers treat alike;
* `Fault.message` — the wording.
-/
import ShiftReduce.Rule

namespace ShiftReduce

/-- Causes of failure. -/
inductive Fault where
  /-- A text holds no rule that could be read. -/
  | noRules
  /-- There is no start symbol to add a start rule for. -/
  | nothingToAugment
  /-- A rule's name is no non-terminal. -/
  | illegalName (name : String)
  /-- An augmented grammar has no production of this number. -/
  | noProduction (number : Int)
  /-- A dot is not among the symbols of its rule. -/
  | dotOutside (dot : Int) (rule : Rule)
  /-- The symbol behind a dot is in neither class of the grammar. -/
  | unclassified (symbol : Symbol) (rule : Rule) (dot : Nat)
  /-- A state gets a second transition on a symbol. -/
  | secondTransition (state : Nat) (symbol : Symbol)
  /-- A complete item's rule is not a rule of the grammar. -/
  | unmatchedItem (rule : Rule) (dot : Nat)
  /-- After a reduction there is no state to go to. -/
  | noGoto (state : Nat) (symbol : Symbol) (rule : Nat)
  /-- An input token is no terminal. -/
  | unknownToken (token : String)
  /-- A table with conflicts is not run. -/
  | conflicted
  /-- An input is no text. -/
  | noText
  /-- A symbol has no entry. -/
  | missingSymbol (symbol : Symbol)
  /-- A state has no entry. -/
  | missingState (state : Int)
  /-- A rule has no entry. -/
  | missingRule (rule : Rule)
  /-- A position is outside of a list. -/
  | outOfRange
  /-- A run did not end within the given number of steps. -/
  | unfinished (steps : Nat)
  deriving DecidableEq, Repr

namespace Fault

/-- Families of causes. -/
inductive Kind where
  /-- There is nothing to compile. -/
  | emptyGrammar
  /-- A grammar cannot be used. -/
  | unusableGrammar
  /-- Something that every construction keeps does not hold. -/
  | violation
  /-- An input is refused for a token. -/
  | badToken
  /-- An input is refused for the table. -/
  | badTable
  /-- An input has no tokens to take. -/
  | badInput
  /-- A look-up by key found nothing. -/
  | missingKey
  /-- A look-up by position found nothing. -/
  | badPosition
  /-- A run was given up. -/
  | givenUp
  deriving DecidableEq, Repr

/-- The family of a cause. -/
def kind : Fault → Kind
  | noRules => .emptyGrammar
  | nothingToAugment => .unusableGrammar
  | illegalName _ | noProduction _ | dotOutside _ _ | unclassified _ _ _ | secondTransition _ _
  | unmatchedItem _ _ | noGoto _ _ _ => .violation
  | unknownToken _ => .badToken
  | conflicted => .badTable
  | noText => .badInput
  | missingSymbol _ | missingState _ | missingRule _ => .missingKey
  | outOfRange => .badPosition
  | unfinished _ => .givenUp

/-- Faults of a grammar, or of what is built from it. -/
def Kind.isOfGrammar : Kind → Bool
  | emptyGrammar | unusableGrammar | violation => true
  | _ => false

/-- Refusals of an input before the first step. -/
def Kind.isRefusal : Kind → Bool
  | badToken | badTable => true
  | _ => false

/-- The wording of a cause. A look-up by key is worded as the key alone. -/
def message : Fault → String
  | noRules => "No grammar rules are defined."
  | nothingToAugment => "Can't augment a grammar without productions."
  | illegalName name =>
    "Illegal rule name " ++ Text.quoted name ++ ". Rule names must be uppercase letters."
  | noProduction number => "No production " ++ toString number ++ " in the augmented grammar."
  | dotOutside dot rule =>
    "Dot position " ++ toString dot ++ " is outside of " ++ rule.text ++ "."
  | unclassified symbol rule dot =>
    "Symbol " ++ Text.quoted symbol ++ " in " ++ rule.dotted dot
      ++ " is neither a terminal nor a non-terminal."
  | secondTransition state symbol =>
    "State " ++ toString state ++ " already has a transition on " ++ Text.quoted symbol ++ "."
  | unmatchedItem rule dot =>
    "Complete item " ++ rule.dotted dot ++ " matches no rule of the grammar."
  | noGoto state symbol rule =>
    "No goto from state " ++ toString state ++ " on " ++ Text.quoted symbol
      ++ " after reducing by rule " ++ toString rule ++ "."
  | unknownToken token => "Token " ++ Text.quoted token ++ " is not a terminal of the grammar."
  | conflicted => "The table has conflicts. Refusing to simulate."
  | noText => "'list' object has no attribute 'split'"
  | missingSymbol symbol => Text.quoted symbol
  | missingState state => toString state
  | missingRule rule => rule.pairText
  | outOfRange => "list index out of range"
  | unfinished steps => "The run did not end within " ++ toString steps ++ " steps."

end Fault

/-! ### Positions in a list -/

/-- The member at a position; a negative position counts from the end. -/
def atPosition {α : Type} (l : List α) (i : Int) : Except Fault α :=
  let place := if i < 0 then i + l.length else i
  if place < 0 then .error .outOfRange
  else
    match l[place.toNat]? with
    | some a => .ok a
    | none => .error .outOfRange

end ShiftReduce
