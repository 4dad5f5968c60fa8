/-
From a grammar's text to its table.

* `Compiled` — the grammar, its automaton and its table, with the malformed rules;
* `compile` — what a text compiles to, and the warnings given on the way, which are there even if
  the compilation fails;
* `Compiled.debugText` — the grammar and the table as listings.
-/
import ShiftReduce.Grammar.Diagnostics
import ShiftReduce.Grammar.Listing
import ShiftReduce.Log
import ShiftReduce.Simulation.Trace

namespace ShiftReduce

/-- What a text compiles to. -/
structure Compiled where
  grammar : Grammar
  automaton : Automaton
  table : Table
  malformed : List Malformed

/-- What is to be said of a grammar before anything is built from it. Endless recursion is
mentioned only if every symbol is defined. -/
def grammarWarnings (g : Grammar) : List Warning × Except Fault Unit :=
  match g.undefinedSymbols with
  | .error fault => ([], .error fault)
  | .ok undefined =>
    let early := undefined.map fun (s, p) => Warning.undefined s p
    match g.duplicates with
    | .error fault => (early, .error fault)
    | .ok duplicates =>
      let early := early ++ duplicates.map Warning.duplicate
        ++ g.unreachable.map Warning.unreachable
      if undefined.isEmpty then
        match g.endless with
        | .error fault => (early, .error fault)
        | .ok endless => (early ++ endless.map Warning.endless, .ok ())
      else (early, .ok ())

/-- What is to be said of a table: each cell in conflict, and then how many there are. -/
def tableWarnings (t : Table) : List Warning :=
  if t.hasConflict then
    (t.conflicts.map fun (state, s) => Warning.conflict state s (t.actions state s))
      ++ [.conflicts t.conflicts.length]
  else []

/-- The structures of a grammar. With `full`, state 0 of the automaton holds every production. -/
def construct (g : Grammar) (malformed : List Malformed) (full : Bool) : Except Fault Compiled :=
  match g.computeFirst with
  | (_, .error fault) => .error fault
  | (g, .ok _) =>
    match g.computeFollow with
    | (_, .error fault) => .error fault
    | (g, .ok _) => do
      let m ← Automaton.build g (← Augmented.ofGrammar g) full
      let (g, t) := Table.build g m
      return ⟨g, m, ← t, malformed⟩

/-- What a text compiles to, or why it does not, and the warnings given up to then. -/
def compile (full : Bool) (text : String) : List Warning × Except Fault Compiled :=
  let (g, malformed) := Grammar.parse text
  let skipped := malformed.map Warning.malformed
  if g.productions.isEmpty then (skipped, .error .noRules)
  else
    match grammarWarnings g with
    | (found, .error fault) => (skipped ++ found, .error fault)
    | (found, .ok _) =>
      match construct g malformed full with
      | .error fault => (skipped ++ found, .error fault)
      | .ok c => (skipped ++ found ++ tableWarnings c.table, .ok c)

namespace Compiled

/-- The grammar and the table as listings. -/
def debugText (c : Compiled) : Except Fault String :=
  return (← c.grammar.listing) ++ "\n" ++ c.table.listing

/-- The trace of the table over a text. -/
def simulate (c : Compiled) (limit : Nat) (text : String) : Except Fault Trace :=
  ShiftReduce.simulate c.grammar c.table limit text

end Compiled

end ShiftReduce
