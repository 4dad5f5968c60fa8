/-
Actions of a table and what its cells hold.

* `Action` — shift, goto, reduce or accept;
* `Cell` — an action, or several parts that compete;
* `Cell.ofActions?` — the cell of a list of actions, none for an empty list;
* `Cell.join` — a cell with one action more, which competes with what is there;
* `Cell.ofActions?_append` — the cell of a list is made by joining its actions, one after another;
* `Cell.text` — a cell as it is shown.

States and rules are named by members of a type of numbers; a table's are natural numbers.
-/
namespace ShiftReduce

/-- What a table says for a state and a symbol. -/
inductive Action (ν : Type) where
  /-- Take the symbol and go to a state. -/
  | shift (state : ν)
  /-- Go to a state after a reduction to the symbol. -/
  | goto (state : ν)
  /-- Reduce by a rule. -/
  | reduce (rule : ν)
  /-- The input is a sentence. -/
  | accept
  deriving DecidableEq, Repr

/-- What a cell holds. -/
inductive Cell (ν : Type) where
  | single (action : Action ν)
  /-- Parts that compete, in the order in which they came. -/
  | conflict (parts : List (Cell ν))
  deriving Repr

variable {ν : Type}

/-- The action as it is shown in a cell. -/
def Action.text [ToString ν] : Action ν → String
  | shift state => "s" ++ toString state
  | goto state => toString state
  | reduce rule => "r" ++ toString rule
  | accept => "accept"

namespace Cell

/-- The cell of a list of actions: one stands alone, and several compete. -/
def ofActions? : List (Action ν) → Option (Cell ν)
  | [] => none
  | [a] => some (single a)
  | as => some (conflict (as.map single))

/-- The cell with one action more: it stands alone in an empty cell, is the last part where parts
compete already, and competes with an action that stood alone. -/
def join : Option (Cell ν) → Action ν → Cell ν
  | none, a => single a
  | some (conflict parts), a => conflict (parts ++ [single a])
  | some (single b), a => conflict [single b, single a]

theorem ofActions?_concat (as : List (Action ν)) (a : Action ν) :
    ofActions? (as ++ [a]) = some (join (ofActions? as) a) := by
  match as with
  | [] => rfl
  | [_] => rfl
  | b :: c :: as =>
    show some (conflict ((b :: c :: (as ++ [a])).map single)) =
      some (conflict ((b :: c :: as).map single ++ [single a]))
    rw [← List.map_singleton, ← List.map_append]
    rfl

/-- Actions behind those of a cell join it one after another. -/
theorem ofActions?_append (as bs : List (Action ν)) :
    ofActions? (as ++ bs) = bs.foldl (fun c b => some (join c b)) (ofActions? as) := by
  induction bs generalizing as with
  | nil => rw [List.append_nil, List.foldl_nil]
  | cons b bs ih => rw [List.append_cons, ih, ofActions?_concat, List.foldl_cons]

mutual

/-- The cell as it is shown: parts that compete stand in a row. -/
def text [ToString ν] : Cell ν → String
  | single action => action.text
  | conflict parts => "/".intercalate (texts parts)

/-- The cells of a list as they are shown. -/
def texts [ToString ν] : List (Cell ν) → List String
  | [] => []
  | c :: cs => text c :: texts cs

end

mutual

/-- Whether two cells hold the same action, or the same parts in the same order. -/
def same [DecidableEq ν] : Cell ν → Cell ν → Bool
  | single a, single b => a = b
  | conflict cs, conflict ds => allSame cs ds
  | _, _ => false

/-- Whether two lists of cells are the same member by member. -/
def allSame [DecidableEq ν] : List (Cell ν) → List (Cell ν) → Bool
  | [], [] => true
  | c :: cs, d :: ds => same c d && allSame cs ds
  | _, _ => false

end

end Cell

end ShiftReduce
