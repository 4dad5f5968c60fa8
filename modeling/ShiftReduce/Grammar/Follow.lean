/-
FOLLOW sets.

The FOLLOW set of a non-terminal holds the terminals that can stand behind it in a text derived
from the start symbol, and the mark for the end of the input if it can stand at the end.

* `Grammar.followInclusions` — for each non-terminal on a right side, what the symbols behind it
  can start with is part of its FOLLOW set, and so is the FOLLOW set of the production's name if
  these symbols can be empty;
* `Grammar.followRound` — one round of these;
* `Grammar.computeFollow` — the FOLLOW sets of a grammar, computed once and then kept.
-/
import ShiftReduce.Grammar.First

namespace ShiftReduce.Grammar

/-- The two inclusions for a non-terminal `b` before the symbols `rest` in a production of
`name`. -/
def followInclusionsAt (first : SymbolSets) (name b : Symbol) (rest : List Symbol) :
    List Inclusion :=
  [⟨b, fun _ => return (← firstOf first rest).filter (· ≠ Symbol.empty)⟩,
    ⟨b, fun sets => do
      if Symbol.empty ∈ (← firstOf first rest) then SymbolSets.get sets name else return []⟩]

/-- The inclusions for the non-terminals among the symbols of a right side, from left to
right. -/
def followInclusionsIn (g : Grammar) (name : Symbol) : List Symbol → List Inclusion
  | [] => []
  | b :: rest =>
    (if b ∈ g.nonterminals then followInclusionsAt g.first name b rest else [])
      ++ followInclusionsIn g name rest

/-- The inclusions for all productions, in their order. -/
def followInclusions (g : Grammar) : List Inclusion :=
  g.productions.flatMap fun p => g.followInclusionsIn p.name p.rhs

/-- Nothing follows a non-terminal, and the end of the input follows the start symbol. -/
def initialFollow (g : Grammar) : SymbolSets :=
  let sets := g.nonterminals.keys.foldl (fun sets n => sets.insert n []) (∅ : SymbolSets)
  match g.start with
  | none => sets
  | some s => sets.insert s [Symbol.endMark]

/-- A bound on the rounds: each but the last adds a member, and a set holds members of FIRST sets
and the mark for the end of the input. -/
def followRounds (g : Grammar) : Nat :=
  (g.nonterminals.keys.length + 1) * (g.first.size + 1) + 1

/-- The grammar after one more round, and whether a FOLLOW set grew. -/
def followRound (g : Grammar) : Grammar × Except Fault Bool :=
  let (sets, outcome) := Inclusion.round g.followInclusions g.follow
  ({ g with follow := sets }, outcome)

/-- The grammar with its FOLLOW sets, which need its FIRST sets. Sets that are there already are
kept. -/
def computeFollow (g : Grammar) : Grammar × Except Fault SymbolSets :=
  if g.follow.isEmpty then
    match g.computeFirst with
    | (g, .error fault) => (g, .error fault)
    | (g, .ok _) =>
      match g.start with
      | none => ({ g with follow := g.initialFollow }, .ok g.initialFollow)
      | some _ =>
        let (sets, outcome) := Inclusion.saturate g.followInclusions g.followRounds g.initialFollow
        ({ g with follow := sets }, outcome.map fun _ => sets)
  else (g, .ok g.follow)

end ShiftReduce.Grammar
