/-
Symbol sets that grow until they satisfy a list of inclusions.

An inclusion says that the set of one symbol holds what a source gives, and the source may look at
the sets that are being computed. A round takes the inclusions in order and adds to each target
what is missing, so that a later inclusion sees what an earlier one added.

* `Inclusion.apply` — the sets with one inclusion satisfied as far as it can be seen;
* `applyAll`, `round` — all inclusions once, and whether any set grew. A failure ends the round,
  and the sets stay as they were then;
* `saturate` — rounds until nothing grows.
-/
import ShiftReduce.SymbolSets

namespace ShiftReduce

/-- The set of `target` holds what `source` gives. -/
structure Inclusion where
  target : Symbol
  source : SymbolSets → Except Fault (List Symbol)

namespace Inclusion

/-- The sets with that of the target extended by what the source gives. -/
def apply (c : Inclusion) (sets : SymbolSets) : Except Fault SymbolSets := do
  let found ← c.source sets
  SymbolSets.grow sets c.target found

/-- The sets after each inclusion was applied, up to the first that fails. -/
def applyAll : List Inclusion → SymbolSets → SymbolSets × Except Fault Unit
  | [], sets => (sets, .ok ())
  | c :: cs, sets =>
    match c.apply sets with
    | .ok sets => applyAll cs sets
    | .error fault => (sets, .error fault)

/-- The sets after a round, and whether any of them grew. -/
def round (cs : List Inclusion) (sets : SymbolSets) : SymbolSets × Except Fault Bool :=
  let (reached, outcome) := applyAll cs sets
  (reached, outcome.map fun _ => decide (sets.size < reached.size))

/-- The sets after rounds until none grows, at most `rounds` of them. -/
def saturate (cs : List Inclusion) : Nat → SymbolSets → SymbolSets × Except Fault Unit
  | 0, sets => (sets, .ok ())
  | rounds + 1, sets =>
    match round cs sets with
    | (reached, .ok true) => saturate cs rounds reached
    | (reached, .ok false) => (reached, .ok ())
    | (reached, .error fault) => (reached, .error fault)

end Inclusion

end ShiftReduce
