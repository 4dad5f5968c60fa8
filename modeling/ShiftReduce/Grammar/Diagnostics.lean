/-
What looks wrong with a grammar that could be read.

* `Grammar.undefinedSymbols` — non-terminals that are used and have no production;
* `Grammar.unreachable` — non-terminals that no derivation from the start symbol meets;
* `Grammar.endless` — defined non-terminals from which no text of terminals can be derived;
* `Grammar.duplicates` — productions that repeat an earlier one.
-/
import ShiftReduce.Grammar.Basic

namespace ShiftReduce.Grammar

/-! ### Undefined and repeated -/

/-- Non-terminals that are used and have no production, each with the number of the first
production that uses it. -/
def undefinedUses (g : Grammar) : List (Symbol × Nat) :=
  g.nonterminals.entries.filterMap fun (s, uses) =>
    if s ∈ g.byName then none else uses.head?.map fun number => (s, number)

/-- Non-terminals that are used and have no production, each with the first production that uses
it. -/
def undefinedSymbols (g : Grammar) : Except Fault (List (Symbol × Production)) :=
  g.undefinedUses.mapM fun (s, number) => return (s, ← g.productionAt number)

/-- The lowest number of a production's rule. -/
def lowestNumber (g : Grammar) (p : Production) : Except Fault Nat :=
  match g.ruleNumber? p.toRule with
  | some number => .ok number
  | none => .error (.missingRule p.toRule)

/-- Those of the given productions whose rule has another number than theirs. -/
def repeatsAmong (g : Grammar) : List Production → Except Fault (List Production)
  | [] => .ok []
  | p :: ps => do
    let number ← g.lowestNumber p
    let rest ← repeatsAmong g ps
    return if number = p.number then rest else p :: rest

/-- Productions that repeat an earlier one. -/
def duplicates (g : Grammar) : Except Fault (List Production) := g.repeatsAmong g.productions

/-! ### Reachable -/

/-- The symbols on the right sides of a symbol's productions. -/
def successors (g : Grammar) (s : Symbol) : List Symbol :=
  (g.productionsOf s).flatMap fun p => p.rhs

/-- The symbols seen after those of `pending`, which are among them, are searched for further
ones, at most `steps` of them. -/
def explore (g : Grammar) : Nat → List Symbol → List Symbol → List Symbol
  | 0, _, seen => seen
  | _, [], seen => seen
  | steps + 1, s :: pending, seen =>
    let fresh := extend [] ((g.successors s).filter (· ∉ seen))
    explore g steps (fresh ++ pending) (seen ++ fresh)

/-- A bound on the search: the start symbol and one symbol for each place on a right side. -/
def exploreSteps (g : Grammar) : Nat :=
  (g.productions.flatMap fun p => p.rhs).length + 1

/-- The symbols that can be reached from the start symbol. -/
def reachable (g : Grammar) : List Symbol :=
  match g.start with
  | none => []
  | some s => g.explore g.exploreSteps [s] [s]

/-- The non-terminals that cannot be reached, if there is a start symbol to reach them from. -/
def unreachable (g : Grammar) : List Symbol :=
  match g.start with
  | none => []
  | some _ =>
    let met := g.reachable
    g.nonterminals.keys.filter (· ∉ met)

/-! ### Endless -/

/-- Whether a symbol is known to end: a terminal is, and a non-terminal if it is among `ending`.
A symbol in neither class is a failure. -/
def ends (g : Grammar) (ending : List Symbol) (s : Symbol) : Except Fault Bool :=
  if s ∈ g.nonterminals then .ok (decide (s ∈ ending))
  else if s ∈ g.terminals then .ok true
  else .error (.missingSymbol s)

/-- Whether all symbols are known to end, up to the first that is not. -/
def allEnd (g : Grammar) (ending : List Symbol) : List Symbol → Except Fault Bool
  | [] => .ok true
  | s :: rest => do if ← g.ends ending s then allEnd g ending rest else return false

/-- Whether one of the productions is known to end, up to the first that is. -/
def anyEnds (g : Grammar) (ending : List Symbol) : List Production → Except Fault Bool
  | [] => .ok false
  | p :: rest => do if ← g.allEnd ending p.rhs then return true else anyEnds g ending rest

/-- The names that are known to end after the given names are looked at in order. -/
def endingRound (g : Grammar) :
    List (Symbol × List Production) → List Symbol → Except Fault (List Symbol)
  | [], ending => .ok ending
  | (name, ps) :: rest, ending => do
    if ← g.ends ending name then endingRound g rest ending
    else if ← g.anyEnds ending ps then endingRound g rest (ending ++ [name])
    else endingRound g rest ending

/-- Rounds until no further name is known to end, at most `rounds` of them. -/
def endingNames (g : Grammar) : Nat → List Symbol → Except Fault (List Symbol)
  | 0, ending => .ok ending
  | rounds + 1, ending => do
    let reached ← g.endingRound g.byName.entries ending
    if reached.length = ending.length then return ending else endingNames g rounds reached

/-- The defined non-terminals from which no text of terminals can be derived. -/
def endless (g : Grammar) : Except Fault (List Symbol) := do
  let ending ← g.endingNames (g.byName.keys.length + 1) []
  return g.nonterminals.keys.filter fun n => n ∉ ending && n ∈ g.byName

end ShiftReduce.Grammar
