/-
Running a table over an input.

A configuration is a stack of symbols, each with the state that it led to, above state 0, and the
input that is left, with the mark for its end behind it.

* `Configuration` — stack and input;
* `Move`, `Configuration.move` — what the table says to do next;
* `Configuration.after` — the configuration after a move;
* `run` — all moves up to acceptance or rejection, within a number of steps;
* `runOn` — the run over a list of tokens, unless it is refused.
-/
import ShiftReduce.Table.Basic

namespace ShiftReduce

/-- A stack above state 0, its top first, and the input that is left. -/
structure Configuration where
  stack : List (Symbol × Nat)
  input : List Symbol
  deriving DecidableEq, Repr

/-- What is done in a configuration. -/
inductive Move where
  | shift (state : Nat)
  | reduce (rule : Nat) (production : Rule)
  | accept
  | reject
  deriving DecidableEq, Repr

/-- A configuration and what is done in it. -/
structure Step where
  configuration : Configuration
  move : Move
  deriving DecidableEq, Repr

namespace Configuration

/-- The state on top of a stack. -/
def topState : List (Symbol × Nat) → Nat
  | [] => 0
  | (_, state) :: _ => state

/-- What the table says to do. A cell that is empty, or holds a goto or a conflict, rejects. -/
def move (g : Grammar) (t : Table) (c : Configuration) : Except Fault Move :=
  match c.input with
  | [] => .error .outOfRange
  | s :: _ => do
    match ← t.actionsAt (topState c.stack) s with
    | [.shift state] => return .shift state
    | [.reduce rule] => do
      let p ← g.productionAt rule
      return .reduce rule p.toRule
    | [.accept] => return .accept
    | _ => return .reject

/-- The configuration after a shift to a state. -/
def shift (c : Configuration) (state : Nat) : Except Fault Configuration :=
  match c.input with
  | [] => .error .outOfRange
  | s :: rest => .ok ⟨(s, state) :: c.stack, rest⟩

/-- The configuration after a reduction: the symbols of the right side leave the stack, and the
name goes on top of it with the state that the exposed one goes to. -/
def reduce (t : Table) (c : Configuration) (rule : Nat) (r : Rule) : Except Fault Configuration :=
  if c.stack.length < r.rhs.length then .error .outOfRange
  else do
    let rest := c.stack.drop r.rhs.length
    let exposed := topState rest
    match ← t.actionsAt exposed r.name with
    | [.goto state] => return ⟨(r.name, state) :: rest, c.input⟩
    | _ => .error (.noGoto exposed r.name rule)

/-- The configuration after a move; none after acceptance or rejection. -/
def after (t : Table) (c : Configuration) : Move → Except Fault (Option Configuration)
  | .shift state => some <$> c.shift state
  | .reduce rule r => some <$> c.reduce t rule r
  | .accept | .reject => .ok none

end Configuration

/-- The steps from a configuration up to acceptance or rejection; none if they are more than
`steps`. -/
def run (g : Grammar) (t : Table) : Nat → Configuration → Except Fault (Option (List Step))
  | 0, _ => .ok none
  | steps + 1, c => do
    let move ← c.move g t
    match ← c.after t move with
    | none => return some [⟨c, move⟩]
    | some next => return (← run g t steps next).map (⟨c, move⟩ :: ·)

/-- The first of the tokens that is no terminal. -/
def unknownToken? (g : Grammar) (tokens : List Symbol) : Option Symbol :=
  tokens.find? (· ∉ g.terminals)

/-- The configuration that a list of tokens starts in. -/
def startOn (tokens : List Symbol) : Configuration := ⟨[], tokens ++ [Symbol.endMark]⟩

/-- The steps of a table over a list of tokens; none if they are more than `steps`. A table with
conflicts is refused, and so is a token that is no terminal. -/
def runOn (g : Grammar) (t : Table) (steps : Nat) (tokens : List Symbol) :
    Except Fault (Option (List Step)) :=
  if t.hasConflict then .error .conflicted
  else
    match unknownToken? g tokens with
    | some token => .error (.unknownToken token)
    | none => run g t steps (startOn tokens)

end ShiftReduce
