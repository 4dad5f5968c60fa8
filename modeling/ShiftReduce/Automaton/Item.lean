/-
Items: productions with a dot.

The augmented grammar of a grammar has one production more, which derives the start symbol from a
new one and stands first. An item is a production of it together with how many symbols of its
right side have been met.

* `Augmented.ofGrammar` — the augmented grammar;
* `Item` — a production, by its place in the augmented grammar, and a dot;
* `Item.next?`, `Item.advance` — the symbol behind the dot, and the item with the dot behind it;
* `Augmented.item` — the item of two numbers, if there is one;
* `Augmented.leadingItems` — all productions with the dot in front.
-/
import ShiftReduce.Grammar.Basic

namespace ShiftReduce

/-- A production of an augmented grammar and a dot in it. -/
structure Item where
  /-- The place of the production; 0 is that of the start production. -/
  production : Nat
  /-- How many symbols stand before the dot. -/
  dot : Nat
  /-- The rule of the production. -/
  rule : Rule
  deriving DecidableEq, Repr

namespace Item

/-- The symbol behind the dot. -/
def next? (i : Item) : Option Symbol := i.rule.rhs[i.dot]?

/-- Whether nothing stands behind the dot. -/
def isComplete (i : Item) : Bool := i.dot = i.rule.rhs.length

/-- The item with the dot at another place of its rule. -/
def moveTo (i : Item) (dot : Int) : Except Fault Item :=
  if 0 ≤ dot ∧ dot ≤ i.rule.rhs.length then .ok { i with dot := dot.toNat }
  else .error (.dotOutside dot i.rule)

/-- The item with the dot one symbol further. -/
def advance (i : Item) : Except Fault Item := i.moveTo (i.dot + 1)

/-- The item as it is shown. -/
def text (i : Item) : String := i.rule.dotted i.dot

end Item

/-- The rules of a grammar after a start rule that derives its start symbol from a new one. -/
structure Augmented where
  /-- The start symbol of the grammar. -/
  goal : Symbol
  /-- The rules of the grammar. -/
  rules : List Rule
  deriving DecidableEq, Repr

namespace Augmented

/-- The augmented grammar, if there is a start symbol. -/
def ofGrammar (g : Grammar) : Except Fault Augmented :=
  match g.start with
  | none => .error .nothingToAugment
  | some s => .ok ⟨s, g.rules⟩

/-- The new start symbol. -/
def start (a : Augmented) : Symbol := a.goal ++ "'"

/-- The start rule and then the rules of the grammar. -/
def allRules (a : Augmented) : List Rule := ⟨a.start, [a.goal]⟩ :: a.rules

/-- How many productions there are. -/
def size (a : Augmented) : Nat := a.allRules.length

/-- Every production with the dot in front. -/
def leadingItems (a : Augmented) : List Item := a.allRules.zipIdx.map fun (r, n) => ⟨n, 0, r⟩

/-- The start production with the dot in front. -/
def startItem (a : Augmented) : Item := ⟨0, 0, ⟨a.start, [a.goal]⟩⟩

/-- The start production with the dot behind the start symbol of the grammar. -/
def acceptItem (a : Augmented) : Item := ⟨0, 1, ⟨a.start, [a.goal]⟩⟩

/-- The item of a production's place and a dot. -/
def item (a : Augmented) (number dot : Int) : Except Fault Item :=
  if number < 0 then .error (.noProduction number)
  else
    match a.leadingItems[number.toNat]? with
    | none => .error (.noProduction number)
    | some i => i.moveTo dot

/-- The productions by the numbers that rules of the grammar have; the start production has the
number before the first. -/
def numbered (a : Augmented) : List (Int × Rule) :=
  a.allRules.zipIdx.map fun (r, n) => ((n : Int) - 1, r)

end Augmented

end ShiftReduce
