/-
FIRST sets.

The FIRST set of a symbol holds the terminals that a text derived from it can start with, and the
mark of the empty string if it can be empty.

* `firstOf` — the FIRST set of a list of symbols, from those of its members;
* `Grammar.firstInclusions` — the FIRST set of a production's right side is part of its name's;
* `Grammar.firstRound` — one round of these;
* `Grammar.computeFirst` — the FIRST sets of a grammar, computed once and then kept.
-/
import ShiftReduce.Grammar.Basic
import ShiftReduce.Inclusion

namespace ShiftReduce

/-- The FIRST set of a list of symbols: what its first symbol can start with, and if that can be
empty also what the rest can start with. -/
def firstOf (sets : SymbolSets) : List Symbol → Except Fault (List Symbol)
  | [] => .ok [Symbol.empty]
  | s :: rest => do
    let own ← SymbolSets.get sets s
    let visible := extend [] (own.filter (· ≠ Symbol.empty))
    if Symbol.empty ∈ own then
      return extend visible (← firstOf sets rest)
    else
      return visible

namespace Grammar

/-- One inclusion for each production of each non-terminal. -/
def firstInclusions (g : Grammar) : List Inclusion :=
  g.nonterminals.keys.flatMap fun name =>
    (g.productionsOf name).map fun p => ⟨name, fun sets => firstOf sets p.rhs⟩

/-- Terminals stand for themselves, and nothing is known of non-terminals. -/
def initialFirst (g : Grammar) : SymbolSets :=
  let sets := g.terminals.keys.foldl (fun sets t => sets.insert t [t]) (∅ : SymbolSets)
  g.nonterminals.keys.foldl (fun sets n => sets.insert n []) sets

/-- A bound on the rounds: each but the last adds a member, and a set holds terminals and the mark
of the empty string. -/
def firstRounds (g : Grammar) : Nat :=
  g.symbols.length * (g.terminals.keys.length + 1) + 1

/-- The grammar after one more round, and whether a FIRST set grew. -/
def firstRound (g : Grammar) : Grammar × Except Fault Bool :=
  let (sets, outcome) := Inclusion.round g.firstInclusions g.first
  ({ g with first := sets }, outcome)

/-- The grammar with its FIRST sets. Sets that are there already are kept. -/
def computeFirst (g : Grammar) : Grammar × Except Fault SymbolSets :=
  if g.first.isEmpty then
    let (sets, outcome) := Inclusion.saturate g.firstInclusions g.firstRounds g.initialFirst
    ({ g with first := sets }, outcome.map fun _ => sets)
  else (g, .ok g.first)

end Grammar

end ShiftReduce
