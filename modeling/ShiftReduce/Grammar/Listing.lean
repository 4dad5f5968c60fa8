/-
A grammar as a listing: its numbered rules, where each symbol is used, and the sets as far as they
have been computed.

* `Grammar.listing` — the listing, which needs a set for every non-terminal if there are any.
-/
import ShiftReduce.Grammar.Basic
import ShiftReduce.Text.Columns

namespace ShiftReduce.Grammar

/-- A line for each symbol: the symbol and what belongs to it. -/
def listingLine (s : Symbol) (items : List String) : String :=
  s ++ " : " ++ Text.unwords items

/-- The numbered rules. -/
def ruleLines (g : Grammar) : List String :=
  g.productions.zipIdx.map fun (p, n) => "Rule " ++ Text.padStart 5 (toString n) ++ " " ++ p.text

/-- The symbols of a class and the rules that use them. -/
def useLines (uses : Assoc Symbol (List Nat)) : List String :=
  uses.entries.map fun (s, numbers) => listingLine s (numbers.map toString)

/-- The sets of the non-terminals under a heading; nothing if there are no sets. -/
def setLines (g : Grammar) (heading : String) (sets : SymbolSets) : Except Fault (List String) :=
  if sets.isEmpty then .ok []
  else do
    let lines ← g.nonterminals.keys.mapM fun s => return listingLine s (← sets.get s)
    return heading :: lines

/-- The listing of a grammar. -/
def listing (g : Grammar) : Except Fault String := do
  let first ← g.setLines "\nFIRST sets:\n" g.first
  let follow ← g.setLines "\nFOLLOW sets:\n" g.follow
  return "\n".intercalate
    ("Grammar:\n" :: g.ruleLines
      ++ "\nTerminals, with rules where they appear:\n" :: useLines g.terminals
      ++ "\nNonterminals, with rules where they appear:\n" :: useLines g.nonterminals
      ++ first ++ follow ++ [""])

end ShiftReduce.Grammar
