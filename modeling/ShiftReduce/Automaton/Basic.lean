/-
The automaton of item sets.

Its states are lists of items, numbered in the order in which they are found. State 0 is the
closure of the start item, or holds every production with its dot in front. A transition on a
symbol leads to the closure of the items whose dot passes the symbol.

* `Automaton` — states, transitions and the state that completes the start production;
* `Automaton.goto` — where a transition leads;
* `Automaton.addTransition` — one more transition, unless there is one already;
* `goto_addTransition` — it leads where it says, and the others lead where they did;
* `Automaton.expand` — the transitions of one state, and the states that they find;
* `Automaton.build` — the automaton of a grammar.
-/
import ShiftReduce.Automaton.Closure

namespace ShiftReduce

/-- A move from a state to a state on a symbol. -/
structure Transition where
  source : Nat
  symbol : Symbol
  target : Nat
  deriving DecidableEq, Repr

/-- States that are lists of items, and the transitions between them. -/
structure Automaton where
  /-- The productions that the items are of. -/
  augmented : Augmented
  /-- The closure table that the states are closed with. -/
  closures : ClosureTable
  /-- The states. -/
  states : List (List Item)
  /-- The transitions, in the order in which they were found. -/
  transitions : List Transition
  /-- The state in which the start production is complete. -/
  finalState : Option Nat

namespace Automaton

/-- Whether two lists hold the same items. -/
def sameItems (l l' : List Item) : Bool := l.all (· ∈ l') && l'.all (· ∈ l)

/-- The number of the state that holds the given items. -/
def stateOf? (m : Automaton) (items : List Item) : Option Nat :=
  m.states.findIdx? (sameItems items)

/-- The automaton with one more state. -/
def addState (m : Automaton) (items : List Item) : Automaton :=
  { m with
    states := m.states ++ [items]
    finalState := if m.augmented.acceptItem ∈ items then some m.states.length else m.finalState }

/-- Where the transition from a state on a symbol leads. -/
def goto (m : Automaton) (state : Nat) (s : Symbol) : Option Nat :=
  (m.transitions.find? fun t => t.source = state ∧ t.symbol = s).map Transition.target

/-- Where the transition from the state of a number on a symbol leads; a number that no state has
has no transitions. -/
def gotoFrom (m : Automaton) (state : Int) (s : Symbol) : Option Nat :=
  if state < 0 then none else m.goto state.toNat s

/-- The automaton with one more transition. -/
def addTransition (m : Automaton) (t : Transition) : Except Fault Automaton :=
  match m.goto t.source t.symbol with
  | some _ => .error (.secondTransition t.source t.symbol)
  | none => .ok { m with transitions := m.transitions ++ [t] }

theorem goto_addTransition {m m' : Automaton} {t : Transition} (h : m.addTransition t = .ok m')
    (state : Nat) (s : Symbol) :
    m'.goto state s
      = if state = t.source ∧ s = t.symbol then some t.target else m.goto state s := by
  unfold addTransition at h
  split at h
  · cases h
  · next hnone =>
    obtain rfl := Except.ok.inj h
    unfold goto at hnone ⊢
    rw [List.find?_append, Option.map_or]
    by_cases hs : state = t.source ∧ s = t.symbol
    · obtain ⟨rfl, rfl⟩ := hs
      rw [hnone]
      simp
    · have : ¬(t.source = state ∧ t.symbol = s) := fun h' => hs ⟨h'.1.symm, h'.2.symm⟩
      simp [hs, this]

/-! ### Construction -/

/-- The symbols behind the dots of items, each of which has to be in a class of the grammar. -/
def pendingSymbols (g : Grammar) : List Item → Except Fault (List Symbol)
  | [] => .ok []
  | i :: items =>
    match i.next? with
    | none => pendingSymbols g items
    | some s =>
      if s ∈ g.terminals ∨ s ∈ g.nonterminals then (s :: ·) <$> pendingSymbols g items
      else .error (.unclassified s i.rule i.dot)

/-- The items whose dot is before `s`, with the dot behind it. -/
def kernelOn (s : Symbol) : List Item → Except Fault (List Item)
  | [] => .ok []
  | i :: items =>
    if i.next? = some s then do
      let moved ← i.advance
      return moved :: (← kernelOn s items)
    else kernelOn s items

/-- The automaton with the transition from state `n`, which holds `items`, on `s`, and with the
state that it leads to. -/
def expandOn (m : Automaton) (n : Nat) (items : List Item) (s : Symbol) : Except Fault Automaton := do
  let target := closeKernel m.closures (← kernelOn s items)
  match m.stateOf? target with
  | some known => m.addTransition ⟨n, s, known⟩
  | none => (m.addState target).addTransition ⟨n, s, m.states.length⟩

/-- The automaton with the transitions from state `n`, which holds `items`: those symbols of the
grammar are taken, in its order, that stand behind a dot. -/
def expand (g : Grammar) (m : Automaton) (n : Nat) (items : List Item) : Except Fault Automaton := do
  let pending ← pendingSymbols g items
  (g.symbols.filter (· ∈ pending)).foldlM (fun m s => m.expandOn n items s) m

/-- The automaton after the states from number `n` on were expanded, those that are found on the
way too; at most `steps` states. -/
def expandFrom (g : Grammar) : Nat → Nat → Automaton → Except Fault Automaton
  | 0, _, m => .ok m
  | steps + 1, n, m =>
    match m.states[n]? with
    | none => .ok m
    | some items => do expandFrom g steps (n + 1) (← expand g m n items)

/-- How many items there are: one for each place of a dot in a production. -/
def itemCount (a : Augmented) : Nat := (a.allRules.flatMap Rule.rhs).length + a.allRules.length

/-- The automaton of a grammar. With `full`, state 0 holds every production with the dot in front
and not only the closure of the start item. There are at most as many states as sets of items. -/
def build (g : Grammar) (a : Augmented) (full : Bool) : Except Fault Automaton :=
  let closures := closureTable g a
  let initial := if full then a.leadingItems else closeKernel closures [a.startItem]
  let m : Automaton := ⟨a, closures, [], [], none⟩
  expandFrom g (Nat.pow 2 (itemCount a)) 0 (m.addState initial)

/-! ### Views -/

/-- The items of the state at a position, as they are shown; a negative position counts from the
end. -/
def describeState (m : Automaton) (state : Int) : Except Fault (List String) :=
  return (← atPosition m.states state).map Item.text

/-- The items of every state, as they are shown. -/
def stateTexts (m : Automaton) : List (List String) := m.states.map (List.map Item.text)

end Automaton

end ShiftReduce
