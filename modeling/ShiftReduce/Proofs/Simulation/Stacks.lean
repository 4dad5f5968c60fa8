/-
Stacks and moves.

The states of a stack are those that the transitions on its symbols lead to, so that the symbols of
a stack tell the whole stack, and its top state holds the items that are reached with them.

* `Automaton.OnPath`, `wordOf` — such stacks, and their symbols from the bottom up;
* `Automaton.OnPath.mem_iff`, `Automaton.OnPath.eq_of_wordOf_eq` — what the symbols say;
* `Tabulated.takes_shift`, `Tabulated.takes_reduce`, `Tabulated.move_accept` — what is done without
  conflicts;
* `Tabulated.takes_cases` — what is done in general;
* `Tabulated.exists_after` — without conflicts, and with state 0 closed from the start item only,
  nothing goes wrong.
-/
import ShiftReduce.Proofs.Table.Tabulation
import ShiftReduce.Proofs.Simulation.Runs

namespace ShiftReduce

open ShiftReduce.Configuration (topState)

/-- The symbols of a stack from the bottom up. -/
def wordOf (stack : List (Symbol × Nat)) : List Symbol := (stack.map Prod.fst).reverse

theorem wordOf_cons (s : Symbol) (k : Nat) (stack : List (Symbol × Nat)) :
    wordOf ((s, k) :: stack) = wordOf stack ++ [s] := List.reverse_cons

theorem length_wordOf (stack : List (Symbol × Nat)) : (wordOf stack).length = stack.length := by
  rw [wordOf, List.length_reverse, List.length_map]

theorem wordOf_drop {stack : List (Symbol × Nat)} {xs ys : List Symbol}
    (h : wordOf stack = xs ++ ys) : wordOf (stack.drop ys.length) = xs := by
  have hsymbols : stack.map Prod.fst = ys.reverse ++ xs.reverse := by
    rw [← List.reverse_append, ← h, wordOf, List.reverse_reverse]
  rw [wordOf, List.map_drop, hsymbols, ← ys.length_reverse, List.drop_left, List.reverse_reverse]

theorem wordOf_take {stack : List (Symbol × Nat)} {xs ys : List Symbol}
    (h : wordOf stack = xs ++ ys) : wordOf (stack.take ys.length) = ys := by
  have hsymbols : stack.map Prod.fst = ys.reverse ++ xs.reverse := by
    rw [← List.reverse_append, ← h, wordOf, List.reverse_reverse]
  rw [wordOf, List.map_take, hsymbols, ← ys.length_reverse, List.take_left, List.reverse_reverse]

theorem length_le_of_wordOf_eq {stack : List (Symbol × Nat)} {xs ys : List Symbol}
    (h : wordOf stack = xs ++ ys) : ys.length ≤ stack.length := by
  rw [← length_wordOf, h, List.length_append]
  omega

namespace Automaton

/-- Stacks whose states are those that the transitions lead to. -/
inductive OnPath (m : Automaton) : List (Symbol × Nat) → Prop
  | nil : OnPath m []
  | push {stack : List (Symbol × Nat)} {s : Symbol} {k : Nat} : OnPath m stack →
      m.goto (topState stack) s = some k → OnPath m ((s, k) :: stack)

namespace OnPath

variable {g : Grammar} {a : Augmented} {full : Bool} {m : Automaton}
  {stack stack' : List (Symbol × Nat)}

theorem exists_path (h : m.OnPath stack) :
    ∃ ts, m.Path ts (topState stack) ∧ spelling ts = wordOf stack := by
  induction h with
  | nil => exact ⟨[], .start, rfl⟩
  | @push stack s k _ hgoto ih =>
    obtain ⟨ts, hp, hts⟩ := ih
    refine ⟨ts ++ [⟨topState stack, s, k⟩], ?_, ?_⟩
    · exact .move (t := ⟨topState stack, s, k⟩) hp (mem_of_goto hgoto)
    · rw [spelling_concat, hts, wordOf_cons]

/-- The top state holds the items that are reached with the symbols of the stack. -/
theorem mem_iff (h : m.OnPath stack) (hm : m.Coherent g a full) :
    ∃ items, m.states[topState stack]? = some items ∧
      ∀ i, i ∈ items ↔ i ∈ (itemNfa g a full).eval (wordOf stack) := by
  obtain ⟨ts, hp, hts⟩ := h.exists_path
  exact hts ▸ hp.mem_iff hm

theorem topState_lt (h : m.OnPath stack) (hm : m.Coherent g a full) :
    topState stack < m.states.length := by
  obtain ⟨items, hitems, _⟩ := h.mem_iff hm
  exact (List.getElem?_eq_some_iff.mp hitems).1

theorem eq_of_wordOf_eq (h : m.OnPath stack) (h' : m.OnPath stack')
    (heq : wordOf stack = wordOf stack') : stack = stack' := by
  induction h generalizing stack' with
  | nil =>
    have hlength := congrArg List.length heq
    rw [length_wordOf, length_wordOf] at hlength
    exact (List.eq_nil_of_length_eq_zero hlength.symm).symm
  | @push stack s k _ hgoto ih =>
    cases h' with
    | nil =>
      rw [wordOf_cons] at heq
      exact absurd heq (List.append_ne_nil_of_right_ne_nil _ (List.cons_ne_nil _ _))
    | @push stack' s' k' h' hgoto' =>
      rw [wordOf_cons, wordOf_cons] at heq
      obtain ⟨hinit, hlast⟩ := List.append_inj' heq rfl
      obtain rfl := ih h' hinit
      obtain rfl := (List.cons.inj hlast).1
      rw [Option.some.inj (hgoto.symm.trans hgoto')]

theorem eq_singleton (h : m.OnPath stack) {s : Symbol} (hword : wordOf stack = [s]) :
    ∃ k, m.goto 0 s = some k ∧ stack = [(s, k)] := by
  cases h with
  | nil => cases hword
  | @push stack s' k h hgoto =>
    rw [wordOf_cons] at hword
    obtain ⟨hnil, hs⟩ := List.append_inj' (hword.trans (List.nil_append [s]).symm) rfl
    obtain rfl := (List.cons.inj hs).1
    obtain rfl := h.eq_of_wordOf_eq .nil hnil
    exact ⟨k, hgoto, rfl⟩

theorem drop (h : m.OnPath stack) (n : Nat) : m.OnPath (stack.drop n) := by
  induction h generalizing n with
  | nil =>
    rw [List.drop_nil]
    exact .nil
  | push h hgoto ih =>
    cases n with
    | zero => exact .push h hgoto
    | succ n => exact ih n

theorem exists_goto (h : m.OnPath stack) (hm : m.Built g a full) {i : Item} {s : Symbol}
    (hi : i ∈ (itemNfa g a full).eval (wordOf stack)) (hnext : i.next? = some s) :
    ∃ k, m.goto (topState stack) s = some k := by
  obtain ⟨items, hitems, hmem⟩ := h.mem_iff hm.toCoherent
  exact Option.isSome_iff_exists.mp (hm.expanded _ items hitems i ((hmem i).mpr hi) s hnext)

/-- The symbol behind the dot of an item of the top state can be pushed, which moves the dot. -/
theorem exists_push (h : m.OnPath stack) (hm : m.Built g a full) {i : Item} {s : Symbol}
    (hi : i ∈ (itemNfa g a full).eval (wordOf stack)) (hnext : i.next? = some s) :
    ∃ k, m.goto (topState stack) s = some k ∧ m.OnPath ((s, k) :: stack) ∧
      i.moved ∈ (itemNfa g a full).eval (wordOf ((s, k) :: stack)) := by
  obtain ⟨k, hgoto⟩ := h.exists_goto hm hi hnext
  refine ⟨k, hgoto, .push h hgoto, ?_⟩
  rw [wordOf_cons]
  exact mem_eval_read hi hnext

/-- The symbols of a complete item are on top of the stack, and the item with the dot in front is
in the state below them. -/
theorem exposed (h : m.OnPath stack) {i : Item} (hi : i ∈ (itemNfa g a full).eval (wordOf stack))
    (hcomplete : i.isComplete) :
    ∃ v, wordOf stack = v ++ i.rule.rhs ∧ wordOf (stack.drop i.rule.rhs.length) = v ∧
      m.OnPath (stack.drop i.rule.rhs.length) ∧
      { i with dot := 0 } ∈ (itemNfa g a full).eval v := by
  obtain ⟨v, hv, hzero⟩ := eval_suffix hi
  have hdot : i.dot = i.rule.rhs.length := of_decide_eq_true hcomplete
  rw [hdot, List.take_length] at hv
  exact ⟨v, hv, wordOf_drop hv, h.drop _, hzero⟩

end OnPath

end Automaton

/-! ### Moves -/

namespace Tabulated

variable {g : Grammar} {a : Augmented} {full : Bool} {m : Automaton} {t : Table}
  {stack : List (Symbol × Nat)} {s : Symbol} {rest : List Symbol} {i : Item} {n k : Nat}

theorem name_mem_nonterminals (h : Tabulated g a full m t) (hi : a.Valid i)
    (hzero : i.production ≠ 0) : i.rule.name ∈ g.nonterminals := by
  obtain ⟨_, p, _, hp, hrule⟩ := hi.exists_production h.augmented hzero
  exact hrule ▸ h.consistent.name_mem_nonterminals (List.mem_of_getElem? hp)

/-- What a cell says to do. -/
def moveOf (g : Grammar) : List (Action Nat) → Except Fault Move
  | [.shift state] => .ok (.shift state)
  | [.reduce rule] => (fun p => .reduce rule p.toRule) <$> g.productionAt rule
  | [.accept] => .ok .accept
  | _ => .ok .reject

theorem move_eq (h : Tabulated g a full m t) (hstack : m.OnPath stack) :
    Configuration.move g t ⟨stack, s :: rest⟩ = moveOf g (t.actions (topState stack) s) := by
  rw [Configuration.move]
  dsimp only
  rw [h.actionsAt_eq (hstack.topState_lt h.built.toCoherent)]
  rfl

/-- What a reduction does if its symbols are on the stack. -/
theorem reduce_eq (h : Tabulated g a full m t) {r : Rule}
    (hlength : r.rhs.length ≤ stack.length) (hbelow : m.OnPath (stack.drop r.rhs.length)) :
    Configuration.reduce t ⟨stack, rest⟩ n r =
      match t.actions (topState (stack.drop r.rhs.length)) r.name with
      | [.goto k] => .ok ⟨(r.name, k) :: stack.drop r.rhs.length, rest⟩
      | _ => .error (.noGoto (topState (stack.drop r.rhs.length)) r.name n) := by
  rw [Configuration.reduce]
  dsimp only
  rw [if_neg (Nat.not_lt.mpr hlength), h.actionsAt_eq (hbelow.topState_lt h.built.toCoherent)]
  rfl

theorem takes_shift (h : Tabulated g a full m t) (hfree : t.hasConflict = false)
    (hstack : m.OnPath stack) (hgoto : m.goto (topState stack) s = some k)
    (hs : s ∈ g.terminals) (rest : List Symbol) :
    Takes g t ⟨stack, s :: rest⟩ (.shift k) ⟨(s, k) :: stack, rest⟩ := by
  refine ⟨?_, rfl⟩
  have hcell : t.actions (topState stack) s = [.shift k] :=
    h.actions_eq_singleton hfree ⟨hgoto, hs⟩
  rw [h.move_eq hstack, hcell]
  rfl

/-- Behind a state with a transition on a name, the cell of the name is the goto. -/
theorem actions_goto (h : Tabulated g a full m t) (hfree : t.hasConflict = false)
    (hs : s ∈ g.nonterminals) (hgoto : m.goto n s = some k) : t.actions n s = [.goto k] :=
  h.actions_eq_singleton hfree
    ⟨hgoto, fun hterminal => h.consistent.not_mem_nonterminals hterminal hs⟩

theorem takes_reduce (h : Tabulated g a full m t) (hfree : t.hasConflict = false)
    (hstack : m.OnPath stack) (hi : i ∈ (itemNfa g a full).eval (wordOf stack))
    (hreduces : Reduces g i s) (hn : g.ruleNumber? i.rule = some n)
    (hgoto : m.goto (topState (stack.drop i.rule.rhs.length)) i.rule.name = some k)
    (rest : List Symbol) :
    Takes g t ⟨stack, s :: rest⟩ (.reduce n i.rule)
      ⟨(i.rule.name, k) :: stack.drop i.rule.rhs.length, s :: rest⟩ := by
  obtain ⟨items, hitems, hmem⟩ := hstack.mem_iff h.built.toCoherent
  obtain ⟨v, hv, _, hbelow, _⟩ := hstack.exposed hi hreduces.isComplete
  obtain ⟨p, hp, hrule⟩ := h.consistent.exists_of_ruleNumber? hn
  constructor
  · have hcell : t.actions (topState stack) s = [.reduce n] :=
      h.actions_eq_singleton hfree ⟨items, i, hitems, (hmem i).mpr hi, hreduces, hn⟩
    rw [h.move_eq hstack, hcell, moveOf, Grammar.productionAt_of_getElem? hp]
    exact congrArg (fun r => Except.ok (Move.reduce n r)) hrule
  · have hname := h.name_mem_nonterminals (valid_of_mem_eval hi) hreduces.production_ne_zero
    rw [Configuration.after, h.reduce_eq (length_le_of_wordOf_eq hv) hbelow,
      h.actions_goto hfree hname hgoto]
    rfl

theorem move_accept (h : Tabulated g a full m t) (hfree : t.hasConflict = false)
    (hstack : m.OnPath stack) (hfinal : m.finalState = some (topState stack))
    (rest : List Symbol) :
    Configuration.move g t ⟨stack, Symbol.endMark :: rest⟩ = .ok .accept := by
  have hcell : t.actions (topState stack) Symbol.endMark = [.accept] :=
    h.actions_eq_singleton hfree ⟨rfl, hfinal⟩
  rw [h.move_eq hstack, hcell]
  rfl

theorem move_cases (h : Tabulated g a full m t) (hstack : m.OnPath stack) (s : Symbol)
    (rest : List Symbol) :
    (∃ k, Configuration.move g t ⟨stack, s :: rest⟩ = .ok (.shift k) ∧
      m.goto (topState stack) s = some k ∧ s ∈ g.terminals) ∨
    (∃ n i, Configuration.move g t ⟨stack, s :: rest⟩ = .ok (.reduce n i.rule) ∧
      g.ruleNumber? i.rule = some n ∧ i ∈ (itemNfa g a full).eval (wordOf stack) ∧
      Reduces g i s) ∨
    (Configuration.move g t ⟨stack, s :: rest⟩ = .ok .accept ∧ s = Symbol.endMark ∧
      m.finalState = some (topState stack)) ∨
    Configuration.move g t ⟨stack, s :: rest⟩ = .ok .reject := by
  have hground : ∀ {action}, t.actions (topState stack) s = [action] →
      Grounds g m (topState stack) s action := fun hcell =>
    h.mem_actions_iff.mp (hcell ▸ List.mem_singleton_self _)
  rw [h.move_eq hstack]
  match hcell : t.actions (topState stack) s with
  | [.shift k] => exact .inl ⟨k, rfl, hground hcell⟩
  | [.reduce n] =>
    obtain ⟨items, i, hitems, hi, hreduces, hn⟩ := hground hcell
    obtain ⟨p, hp, hrule⟩ := h.consistent.exists_of_ruleNumber? hn
    obtain ⟨items', hitems', hmem⟩ := hstack.mem_iff h.built.toCoherent
    obtain rfl := Option.some.inj (hitems.symm.trans hitems')
    refine .inr (.inl ⟨n, i, ?_, hn, (hmem i).mp hi, hreduces⟩)
    rw [moveOf, Grammar.productionAt_of_getElem? hp, ← hrule]
    rfl
  | [.accept] => exact .inr (.inr (.inl ⟨rfl, hground hcell⟩))
  | [] => exact .inr (.inr (.inr rfl))
  | [.goto _] => exact .inr (.inr (.inr rfl))
  | _ :: _ :: _ => exact .inr (.inr (.inr (by simp [moveOf])))

/-- What a move leads to: a shift takes a terminal, and a reduction puts a name in the place of its
right side. -/
theorem takes_cases (h : Tabulated g a full m t) {c c' : Configuration} {move : Move}
    (hstack : m.OnPath c.stack) (ht : Takes g t c move c') :
    m.OnPath c'.stack ∧
    ((∃ s k, move = .shift k ∧ s ∈ g.terminals ∧ c.input = s :: c'.input ∧
      wordOf c'.stack = wordOf c.stack ++ [s]) ∨
    ∃ n p v, move = .reduce n p.toRule ∧ g.productions[n]? = some p ∧ c'.input = c.input ∧
      wordOf c.stack = v ++ p.rhs ∧ wordOf c'.stack = v ++ [p.name]) := by
  obtain ⟨stack, input⟩ := c
  obtain ⟨hmove, hafter⟩ := ht
  dsimp only at hstack
  cases input with
  | nil => cases hmove
  | cons s rest =>
    rcases h.move_cases hstack s rest with
      ⟨k, hshift, hgoto, hs⟩ | ⟨n, i, hreduce, hn, hi, hreduces⟩ | ⟨haccept, _⟩ | hreject
    · obtain rfl := Except.ok.inj (hmove.symm.trans hshift)
      obtain rfl := Option.some.inj (Except.ok.inj hafter)
      exact ⟨.push hstack hgoto, .inl ⟨s, k, rfl, hs, rfl, wordOf_cons s k stack⟩⟩
    · obtain rfl := Except.ok.inj (hmove.symm.trans hreduce)
      obtain ⟨p, hp, hrule⟩ := h.consistent.exists_of_ruleNumber? hn
      obtain ⟨v, hv, hdrop, hbelow, _⟩ := hstack.exposed hi hreduces.isComplete
      rw [← hrule] at hv hdrop hbelow hafter ⊢
      obtain ⟨c₁, hreduced, hsome⟩ := map_eq_ok_iff.mp hafter
      obtain rfl := Option.some.inj hsome
      rw [h.reduce_eq (length_le_of_wordOf_eq hv) hbelow] at hreduced
      split at hreduced
      · next k hcell =>
        obtain rfl := Except.ok.inj hreduced
        -- The cell below the right side names the state behind the name.
        obtain ⟨hgoto, _⟩ : Grounds g m _ p.name (.goto k) :=
          h.mem_actions_iff.mp (hcell ▸ List.mem_singleton_self _)
        refine ⟨.push hbelow hgoto, .inr ⟨n, p, v, rfl, hp, rfl, hv, ?_⟩⟩
        rw [wordOf_cons, hdrop]
      · cases hreduced
    · obtain rfl := Except.ok.inj (hmove.symm.trans haccept)
      cases hafter
    · obtain rfl := Except.ok.inj (hmove.symm.trans hreject)
      cases hafter

/-- With state 0 closed from the start item only, a name that is reduced to stands behind the dot of
an item in the state that it comes upon. -/
theorem exists_goto_of_reduces (h : Tabulated g a false m t) (hstack : m.OnPath stack)
    (hi : i ∈ (itemNfa g a false).eval (wordOf stack)) (hreduces : Reduces g i s) :
    ∃ k, m.goto (topState (stack.drop i.rule.rhs.length)) i.rule.name = some k := by
  obtain ⟨v, _, hdrop, hbelow, hzero⟩ := hstack.exposed hi hreduces.isComplete
  obtain ⟨j, hj, hnext⟩ := exists_before hzero rfl hreduces.production_ne_zero
  exact hbelow.exists_goto h.built (hdrop ▸ hj) hnext

/-- Without conflicts, and with state 0 closed from the start item only, nothing goes wrong. -/
theorem exists_after (h : Tabulated g a false m t) (hfree : t.hasConflict = false)
    (hstack : m.OnPath stack) (s : Symbol) (rest : List Symbol) :
    ∃ move next, Configuration.move g t ⟨stack, s :: rest⟩ = .ok move ∧
      Configuration.after t ⟨stack, s :: rest⟩ move = .ok next := by
  rcases h.move_cases hstack s rest with
    ⟨k, hmove, _⟩ | ⟨n, i, hmove, hn, hi, hreduces⟩ | ⟨hmove, _⟩ | hmove
  · exact ⟨_, _, hmove, rfl⟩
  · obtain ⟨k, hgoto⟩ := h.exists_goto_of_reduces hstack hi hreduces
    obtain ⟨_, hafter⟩ := h.takes_reduce hfree hstack hi hreduces hn hgoto rest
    exact ⟨_, _, hmove, hafter⟩
  · exact ⟨_, _, hmove, rfl⟩
  · exact ⟨_, _, hmove, rfl⟩

/-- Acceptance says that the stack holds the start symbol alone and that the input is at its
end. -/
theorem of_move_accept (h : Tabulated g a full m t) {c : Configuration} (hstack : m.OnPath c.stack)
    (hmove : c.move g t = .ok .accept) :
    wordOf c.stack = [a.goal] ∧ c.input.head? = some Symbol.endMark := by
  obtain ⟨stack, input⟩ := c
  dsimp only at hstack
  cases input with
  | nil => cases hmove
  | cons s rest =>
    rcases h.move_cases hstack s rest with
      ⟨k, hshift, _⟩ | ⟨n, i, hreduce, _⟩ | ⟨_, hs, hfinal⟩ | hreject
    · cases hmove.symm.trans hshift
    · cases hmove.symm.trans hreduce
    · obtain ⟨items, hitems, haccept⟩ := h.built.mem_finalState _ hfinal
      obtain ⟨items', hitems', hmem⟩ := hstack.mem_iff h.built.toCoherent
      obtain rfl := Option.some.inj (hitems.symm.trans hitems')
      exact ⟨eval_acceptItem h.consistent ((hmem _).mp haccept), congrArg some hs⟩
    · cases hmove.symm.trans hreject

end Tabulated

end ShiftReduce
