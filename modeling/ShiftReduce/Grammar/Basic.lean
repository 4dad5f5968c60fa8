/-
Grammars.

A grammar grows by one production at a time. Beside the productions it keeps the symbols in the
order in which they were first seen, each with the numbers of the productions that use it, and
the FIRST and FOLLOW sets as far as they have been computed; these stay as they are when a
production is added.

* `Grammar` — the productions and what is known about their symbols;
* `Grammar.push`, `Grammar.add` — one more production, `add` refusing an illegal name;
* `Grammar.ofRules` — the grammar of a list of rules;
* `Grammar.ruleNumber?` — the lowest number of a rule;
* `Grammar.forgetSymbol`, `Grammar.forgetRule` — the grammar after a caller took a note out.
-/
import ShiftReduce.SymbolSets

namespace ShiftReduce

/-- Productions, their symbols, and the sets computed from them. -/
structure Grammar where
  /-- The productions; a production's number is its place. -/
  productions : List Production
  /-- The productions of each name. -/
  byName : Assoc Symbol (List Production)
  /-- The lowest number of each rule. -/
  byRule : Assoc Rule Nat
  /-- The terminals, with the number of the production for each of their uses. -/
  terminals : Assoc Symbol (List Nat)
  /-- The non-terminals, with the number of the production for each of their uses on a right
  side. -/
  nonterminals : Assoc Symbol (List Nat)
  /-- The FIRST sets, none before they are computed. -/
  first : SymbolSets
  /-- The FOLLOW sets, none before they are computed. -/
  follow : SymbolSets
  /-- The name of the first production. -/
  start : Option Symbol

namespace Grammar

/-- The grammar without productions. -/
def empty : Grammar := ⟨[], ∅, ∅, ∅, ∅, ∅, ∅, none⟩

instance : EmptyCollection Grammar := ⟨empty⟩

instance : Inhabited Grammar := ⟨empty⟩

/-- The rules of the productions. -/
def rules (g : Grammar) : List Rule := g.productions.map Production.toRule

/-- The productions of a name. -/
def productionsOf (g : Grammar) (name : Symbol) : List Production := (g.byName.find? name).getD []

/-- The grammar with one more use of `s`, by production `number`. -/
def noteUse (number : Nat) (g : Grammar) (s : Symbol) : Grammar :=
  if s.isNonterminal then { g with nonterminals := g.nonterminals.append s number }
  else { g with terminals := g.terminals.append s number }

/-- The number that the next production gets. -/
def nextNumber (g : Grammar) : Nat := g.productions.length

/-- The grammar with one more rule, whose name is taken to be a non-terminal. -/
def push (g : Grammar) (r : Rule) : Grammar :=
  let p : Production := ⟨r, g.nextNumber⟩
  let g := { g with nonterminals := g.nonterminals.touch r.name }
  let g := r.rhs.foldl (noteUse p.number) g
  { g with
    productions := g.productions ++ [p]
    byRule := g.byRule.alter r fun old => old.getD p.number
    byName := g.byName.append r.name p
    start := some (g.start.getD r.name) }

/-- The grammar with one more rule, and the production that the rule became. -/
def add (g : Grammar) (r : Rule) : Except Fault (Grammar × Production) :=
  if r.name.isNonterminal then .ok (g.push r, ⟨r, g.nextNumber⟩)
  else .error (.illegalName r.name)

/-- The grammar of the given rules, in their order. -/
def ofRules (rs : List Rule) : Grammar := rs.foldl push ∅

/-- The lowest number of a production with the given name and right side. -/
def ruleNumber? (g : Grammar) (r : Rule) : Option Nat := g.byRule.find? r

/-- The production at a position; a negative position counts from the end. -/
def productionAt (g : Grammar) (i : Int) : Except Fault Production := atPosition g.productions i

/-- The terminals and then the non-terminals, each in the order in which they were first seen. -/
def symbols (g : Grammar) : List Symbol := g.terminals.keys ++ g.nonterminals.keys

/-! ### Forgetting

The notes of a grammar are open to its callers, who can take one out. Whatever is built from the
grammar afterwards looks its notes up and fails where one is missing. -/

/-- The grammar without any note of a symbol, and whether there was one. The productions stay. -/
def forgetSymbol (g : Grammar) (s : Symbol) : Grammar × Bool :=
  ({ g with terminals := g.terminals.erase s, nonterminals := g.nonterminals.erase s },
    s ∈ g.terminals || s ∈ g.nonterminals)

/-- The grammar without the note of a rule's number, and whether there was one. The productions
stay. -/
def forgetRule (g : Grammar) (r : Rule) : Grammar × Bool :=
  ({ g with byRule := g.byRule.erase r }, r ∈ g.byRule)

end Grammar

end ShiftReduce
