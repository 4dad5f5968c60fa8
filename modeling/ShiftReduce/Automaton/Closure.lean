/-
Closures of items.

An item with its dot before a non-terminal stands for what the non-terminal's productions begin
with as well.

* `ClosureTable` — for each non-terminal the items that its productions begin with, directly or
  through the non-terminals that they begin with;
* `closureTable` — the table of an augmented grammar, by rounds that go on until no list grows;
* `closeKernel` — a list of items with the table's lists for the non-terminals behind their dots.
-/
import ShiftReduce.Distinct
import ShiftReduce.Automaton.Item

namespace ShiftReduce

/-- Lists of items, for each non-terminal. -/
abbrev ClosureTable := Assoc Symbol (List Item)

namespace ClosureTable

/-- The items of the non-terminal behind an item's dot; none if there is no non-terminal. -/
def behind (table : ClosureTable) (i : Item) : List Item :=
  match i.next? with
  | none => []
  | some s => (table.find? s).getD []

/-- The productions of each non-terminal with the dot in front. -/
def initial (g : Grammar) (a : Augmented) : ClosureTable :=
  let table := g.nonterminals.keys.foldl (fun table n => table.insert n []) (∅ : ClosureTable)
  a.leadingItems.foldl (fun table i =>
    if i.rule.name ∈ table then table.append i.rule.name i else table) table

/-- The items `done` and `waiting`, and those behind the dots of the waiting ones, which wait in
turn; at most `steps` items are taken from the waiting ones. -/
def walk (table : ClosureTable) : Nat → List Item → List Item → List Item
  | 0, done, waiting => done ++ waiting
  | _, done, [] => done
  | steps + 1, done, i :: waiting =>
    let fresh := extend [] ((table.behind i).filter fun c => c ∉ done ∧ c ≠ i ∧ c ∉ waiting)
    walk table steps (done ++ [i]) (waiting ++ fresh)

/-- The table after the list of each of the given non-terminals was walked, in order. -/
def round (steps : Nat) (table : ClosureTable) (names : List Symbol) : ClosureTable :=
  names.foldl (fun table n =>
    table.insert n (walk table steps [] ((table.find? n).getD []))) table

/-- How many items all lists have together. -/
def size (table : ClosureTable) : Nat := table.values.flatten.length

/-- Rounds until no list grows, at most `rounds` of them. -/
def saturate (steps : Nat) : Nat → ClosureTable → ClosureTable
  | 0, table => table
  | rounds + 1, table =>
    let reached := round steps table table.keys
    if table.size < reached.size then saturate steps rounds reached else reached

end ClosureTable

/-- The closure table of an augmented grammar. A list holds each production once at most, which
bounds the walk along it and the rounds. -/
def closureTable (g : Grammar) (a : Augmented) : ClosureTable :=
  let rounds := g.nonterminals.keys.length * a.size + 1
  ClosureTable.saturate a.size rounds (ClosureTable.initial g a)

/-- A list of items and behind it those that the table has for their non-terminals. -/
def closeKernel (table : ClosureTable) (kernel : List Item) : List Item :=
  kernel.foldl (fun items i => extend items (table.behind i)) kernel

end ShiftReduce
