/-
What the command line shows of a grammar.

* `report` — rules, symbols with their sets, states, transitions and the table;
* `traceReport` — the steps of a run.
-/
import ShiftReduce.Compiler

namespace ShiftReduce.CommandLine

/-- Lines of text, each with its end. -/
def lines (ls : List String) : String := String.join (ls.map (· ++ "\n"))

/-- Rows in columns; rows that do not fit their header are a fault. -/
def columns (rows : List (List String)) : Except Fault String :=
  match Text.columns? rows with
  | some text => .ok text
  | none => .error .outOfRange

/-- The rules with the names that reductions have for them. -/
def ruleLines (g : Grammar) : List String :=
  g.productions.map fun p => "  r" ++ toString p.number ++ ": " ++ p.text

/-- A non-terminal and its sets. -/
def setRow (g : Grammar) (s : Symbol) : Except Fault (List String) := do
  return [s, ", ".intercalate (← g.first.get s), ", ".intercalate (← g.follow.get s)]

/-- The items of each state under the name of the state. -/
def stateLines (m : Automaton) : List String :=
  m.stateTexts.zipIdx.flatMap fun (items, state) =>
    let mark := if m.finalState = some state then "  (final)" else ""
    ("\nI" ++ toString state ++ mark) :: items.map ("  " ++ ·)

/-- The transitions as arrows. -/
def transitionLines (m : Automaton) : List String :=
  m.transitions.map fun t =>
    "  " ++ toString t.source ++ " --" ++ t.symbol ++ "--> " ++ toString t.target

/-- All that a grammar compiles to. -/
def report (c : Compiled) : Except Fault String := do
  let g := c.grammar
  let sets ← columns (["Symbol", "FIRST", "FOLLOW"] :: (← g.nonterminals.keys.mapM (setRow g)))
  let grid ← columns c.table.grid
  let verdict :=
    if c.table.hasConflict then ["\nThe grammar is not SLR(1): the table has conflicts."] else []
  return lines ("Rules:" :: ruleLines g
    ++ ["\nTerminals: " ++ Text.unwords g.terminals.keys,
      "Nonterminals: " ++ Text.unwords g.nonterminals.keys, "", sets]
    ++ stateLines c.automaton
    ++ "\nTransitions:" :: transitionLines c.automaton
    ++ ["\nACTION/GOTO:", grid] ++ verdict)

/-- The steps of a run. -/
def traceReport (t : Trace) : Except Fault String := do
  let steps ← columns (["Step", "Stack", "Input", "Action"] :: t.texts)
  return lines ["\nParse:", steps]

end ShiftReduce.CommandLine
