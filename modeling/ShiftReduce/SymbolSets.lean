/-
Sets of symbols, one for each of several symbols.

* `SymbolSets` — the sets, without repeats and in the order in which their members came in;
* `SymbolSets.get` — the set of a symbol, whose absence is a fault;
* `SymbolSets.grow` — the sets with further members for one symbol;
* `SymbolSets.size` — how many members all sets have together.
-/
import ShiftReduce.Assoc
import ShiftReduce.Distinct
import ShiftReduce.Fault

namespace ShiftReduce

/-- A set of symbols for each of several symbols, without repeats and in the order in which the
members came in. -/
abbrev SymbolSets := Assoc Symbol (List Symbol)

namespace SymbolSets

/-- The set of a symbol that has one. -/
def get (sets : SymbolSets) (s : Symbol) : Except Fault (List Symbol) :=
  match sets.find? s with
  | some members => .ok members
  | none => .error (.missingSymbol s)

/-- How many members all sets have together. -/
def size (sets : SymbolSets) : Nat := sets.values.flatten.length

/-- The sets with the given members added to that of `s`. A symbol without a set is a failure only
if there is something to add. -/
def grow (sets : SymbolSets) (s : Symbol) (found : List Symbol) : Except Fault SymbolSets :=
  if found.isEmpty then .ok sets
  else do
    let members ← get sets s
    return sets.insert s (extend members found)

end SymbolSets

end ShiftReduce
