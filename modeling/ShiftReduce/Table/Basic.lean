/-
The table of actions.

A table has a row for each state of an automaton, and a row has actions for some symbols: a shift
or a goto for each transition, acceptance for the end of the input in the final state, and for
each complete item a reduction for every symbol that can follow its name. Two actions for one
symbol are a conflict; both stay.

* `Row`, `Table` — the actions and what was noted when they were written;
* `placeTransition`, `placeReduction` — one action more;
* `Table.build` — the table of an automaton, which needs the FOLLOW sets of its grammar;
* `Table.actions` — the actions for a state and a symbol.
-/
import ShiftReduce.Automaton.Basic
import ShiftReduce.Grammar.Follow
import ShiftReduce.Table.Action
import ShiftReduce.Text.Columns

namespace ShiftReduce

/-- The actions of a state, by symbol. -/
abbrev Row := Assoc Symbol (List (Action Nat))

/-- The rows of a table and the cells in conflict, as far as they are written. -/
structure Board where
  rows : List Row
  /-- The cells with more than one action, in the order in which they got their second. -/
  conflicts : List (Nat × Symbol)

namespace Board

/-- The rows of `size` states, without actions. -/
def blank (size : Nat) : Board := ⟨List.replicate size ∅, []⟩

/-- The board with an action as the only one for a state and a symbol. -/
def put (b : Board) (state : Nat) (s : Symbol) (action : Action Nat) : Board :=
  { b with rows := b.rows.modify state fun row => row.insert s [action] }

/-- The actions for a state and a symbol. -/
def actions (b : Board) (state : Nat) (s : Symbol) : List (Action Nat) :=
  (b.rows[state]?.bind fun row => row.find? s).getD []

/-- The board with the action of a transition: a shift on a terminal, and a goto otherwise. -/
def placeTransition (g : Grammar) (b : Board) (t : Transition) : Except Fault Board :=
  if t.source < b.rows.length then
    .ok (b.put t.source t.symbol
      (if t.symbol ∈ g.terminals then .shift t.target else .goto t.target))
  else .error (.missingState t.source)

/-- The board with one more action for a state and a symbol, in conflict with those that are there
already. -/
def placeReduction (b : Board) (reduction : Nat × Symbol × Nat) : Board :=
  let (state, s, rule) := reduction
  let conflicts :=
    if (b.actions state s).isEmpty then b.conflicts else extend b.conflicts [(state, s)]
  ⟨b.rows.modify state fun row => row.append s (.reduce rule), conflicts⟩

/-- The board with acceptance at the end of the input in the final state, if there is one. -/
def placeAccept (b : Board) (finalState : Option Nat) : Board :=
  match finalState with
  | none => b
  | some state => b.put state Symbol.endMark .accept

end Board

/-! ### Reductions -/

/-- The reductions by an item of a state: none unless the item is complete and its production is
not the start production. -/
def reductionsBy (g : Grammar) (state : Nat) (i : Item) : Except Fault (List (Nat × Symbol × Nat)) :=
  if i.isComplete ∧ i.production ≠ 0 then
    match g.ruleNumber? i.rule with
    | none => .error (.unmatchedItem i.rule i.dot)
    | some rule => return (← g.follow.get i.rule.name).map fun s => (state, s, rule)
  else .ok []

/-- The reductions by all items of all states, in their order. -/
def reductions (g : Grammar) (m : Automaton) : Except Fault (List (Nat × Symbol × Nat)) := do
  let items := m.states.zipIdx.flatMap fun (items, state) => items.map fun i => (state, i)
  return (← items.mapM fun (state, i) => reductionsBy g state i).flatten

/-- The rows of an automaton's table. -/
def Board.build (g : Grammar) (m : Automaton) : Except Fault Board := do
  let moves ← m.transitions.foldlM (Board.placeTransition g) (Board.blank m.states.length)
  return (← reductions g m).foldl Board.placeReduction (moves.placeAccept m.finalState)

/-! ### Descriptions -/

/-- An action in words. -/
def explainAction (g : Grammar) : Action Nat → Except Fault String
  | .shift state => .ok ("shift and go to state " ++ toString state)
  | .goto state => .ok ("go to state " ++ toString state)
  | .reduce rule => do
    let p ← g.productionAt rule
    return "reduce using rule " ++ toString rule ++ " (" ++ p.text ++ ")"
  | .accept => .ok "accept"

/-- The actions for a symbol in words, the symbol filled up to a width; nothing if there are
none. -/
def explainCell (g : Grammar) (row : Row) (width : Nat) (s : Symbol) : Except Fault (List String) :=
  match (row.find? s).getD [] with
  | [] => .ok []
  | actions => do
    let parts ← actions.mapM (explainAction g)
    return ["    " ++ Text.padEnd width s ++ " " ++ " / ".intercalate parts]

/-- The text of a list of actions as a cell shows it. -/
def cellText (actions : List (Action Nat)) : String := "/".intercalate (actions.map Action.text)

theorem texts_map_single (as : List (Action Nat)) :
    Cell.texts (as.map Cell.single) = as.map Action.text := by
  induction as with
  | nil => rfl
  | cons a as ih => rw [List.map_cons, Cell.texts, Cell.text, ih, List.map_cons]

/-- A cell shows the text of its actions. -/
theorem text_of_ofActions? {as : List (Action Nat)} {c : Cell Nat}
    (h : Cell.ofActions? as = some c) : c.text = cellText as := by
  match as, h with
  | [a], h =>
    obtain rfl := Option.some.inj h
    simp [Cell.text, cellText]
  | a :: b :: as, h =>
    obtain rfl := Option.some.inj h
    rw [Cell.text, texts_map_single, cellText]

/-- A cell in conflict, in words. -/
def Board.conflictText (b : Board) (conflict : Nat × Symbol) : String :=
  "conflict for " ++ conflict.2 ++ " in state " ++ toString conflict.1 ++ ": "
    ++ cellText (b.actions conflict.1 conflict.2)

/-- A state in words: its items, its actions, and its cells in conflict. -/
def describeRow (g : Grammar) (b : Board) (items : List Item) (row : Row) (state : Nat) :
    Except Fault String := do
  let shifts ← (g.terminals.keys ++ [Symbol.endMark]).mapM (explainCell g row 15)
  let gotos ← g.nonterminals.keys.mapM (explainCell g row 30)
  let conflicts := (b.conflicts.filter fun c => c.1 = state).map fun c =>
    "  ! " ++ b.conflictText c
  return "\n".intercalate
    (("\nstate " ++ toString state ++ "\n") :: items.map (fun i => "    " ++ i.text) ++ [""]
      ++ shifts.flatten ++ gotos.flatten ++ conflicts)

/-! ### Tables -/

/-- The rows of a table, its columns, and its states in words. -/
structure Table extends Board where
  /-- The heads of the columns: the states' column, then one for each symbol. -/
  headers : List String
  /-- The states in words. -/
  descriptions : List String

namespace Table

/-- The columns of a grammar's symbols, the end of the input between the two classes. -/
def columnSymbols (g : Grammar) : List Symbol :=
  g.terminals.keys ++ Symbol.endMark :: g.nonterminals.keys

/-- The table of an automaton, from sets that are there already. -/
def ofSets (g : Grammar) (m : Automaton) : Except Fault Table := do
  let b ← Board.build g m
  let descriptions ← ((m.states.zip b.rows).zipIdx).mapM fun ((items, row), state) =>
    describeRow g b items row state
  return ⟨b, "State" :: columnSymbols g, descriptions⟩

/-- The table of an automaton, and the grammar with the sets that were computed for it. -/
def build (g : Grammar) (m : Automaton) : Grammar × Except Fault Table :=
  match g.computeFollow with
  | (g, .error fault) => (g, .error fault)
  | (g, .ok _) => (g, ofSets g m)

/-- How many states the table has. -/
def size (t : Table) : Nat := t.rows.length

/-- Whether a cell is in conflict. -/
def hasConflict (t : Table) : Bool := !t.conflicts.isEmpty

/-- The actions for a state and a symbol. -/
def actions (t : Table) (state : Nat) (s : Symbol) : List (Action Nat) := t.toBoard.actions state s

/-- The actions for the state of a number and a symbol, if there is such a state. -/
def actionsAt (t : Table) (state : Int) (s : Symbol) : Except Fault (List (Action Nat)) :=
  if 0 ≤ state ∧ state < t.size then .ok (t.actions state.toNat s)
  else .error (.missingState state)

/-- The cell for the state of a number and a symbol, if there is such a state. -/
def cellAt (t : Table) (state : Int) (s : Symbol) : Except Fault (Option (Cell Nat)) :=
  return Cell.ofActions? (← t.actionsAt state s)

/-- The state of a number in words, if there is such a state. -/
def descriptionAt (t : Table) (state : Int) : Except Fault String :=
  if state < 0 then .error (.missingState state)
  else
    match t.descriptions[state.toNat]? with
    | some text => .ok text
    | none => .error (.missingState state)

/-- The table as rows of texts: the heads of the columns, then each state's cells, empty where
there is no action. -/
def grid (t : Table) : List (List String) :=
  t.headers :: t.rows.zipIdx.map fun (row, state) =>
    toString state :: t.headers.tail.map fun s => cellText ((row.find? s).getD [])

/-- The table in words: its states, and its cells in conflict if there are any. -/
def listing (t : Table) : String :=
  "\n".intercalate
    (t.descriptions
      ++ if t.hasConflict then "\nConflicts:\n" :: t.conflicts.map t.toBoard.conflictText else [])

end Table

end ShiftReduce
