/-
The actions of a table, cell by cell.

A table says for a state and a symbol where the transition on it leads, whether the input is a
sentence, and by which rules the complete items of the state reduce. All of this is kept, and in
this order: nothing is lost when a cell is written more than once, and a rule that stands twice in
the grammar reduces twice.

* `slrActions` — the actions that an automaton and the follow sets call for;
* `Tabulated.actions_eq_slrActions` — they are the actions of the table;
* `Cell.Shows`, `Cell.shows_ofActions?` — how a cell shows a list of actions;
* `Table.IsExact`, `compile_isExact` — a table that shows the actions called for, and nothing else.
-/
import ShiftReduce.Proofs.Table.Tabulation

namespace ShiftReduce

/-! ### The actions called for -/

/-- The actions for a state and a symbol: that of the transition, acceptance, and the reductions in
the order of the state's items, each by the lowest number of the item's rule. -/
def slrActions (g : Grammar) (m : Automaton) (n : Nat) (s : Symbol) : List (Action Nat) :=
  ((m.goto n s).toList.map fun k => if s ∈ g.terminals then .shift k else .goto k) ++
    (if s = Symbol.endMark ∧ m.finalState = some n then [.accept] else []) ++
    ((itemsAt m n).filter fun i => i.isComplete ∧ i.production ≠ 0 ∧
      s ∈ (g.follow.find? i.rule.name).getD []).map fun i => .reduce (g.rules.idxOf i.rule)

namespace Tabulated

variable {g : Grammar} {a : Augmented} {full : Bool} {m : Automaton} {t : Table} {n : Nat}
  {s : Symbol}

theorem goto_endMark (h : Tabulated g a full m t) (n : Nat) : m.goto n Symbol.endMark = none := by
  rw [Option.eq_none_iff_forall_ne_some]
  intro k hgoto
  exact h.not_occurs_endMark (h.occurs_of_mem_transitions (Automaton.mem_of_goto hgoto))

theorem moveActions_eq (h : Tabulated g a full m t) (n : Nat) (s : Symbol) :
    moveActions g m n s =
      ((m.goto n s).toList.map fun k => if s ∈ g.terminals then .shift k else .goto k) ++
        (if s = Symbol.endMark ∧ m.finalState = some n then [.accept] else []) := by
  unfold moveActions
  by_cases hs : s = Symbol.endMark
  · subst hs
    rw [h.goto_endMark]
    by_cases hfinal : m.finalState = some n <;> simp [hfinal]
  · cases m.goto n s <;> simp [hs]

theorem reductions_eq (h : Tabulated g a full m t) (n : Nat) (s : Symbol) :
    (itemsAt m n).filterMap (reductionOn g s) =
      ((itemsAt m n).filter fun i => i.isComplete ∧ i.production ≠ 0 ∧
        s ∈ (g.follow.find? i.rule.name).getD []).map fun i => .reduce (g.rules.idxOf i.rule) := by
  rw [← List.filterMap_eq_map, List.filterMap_filter]
  refine List.filterMap_congr fun i hi => ?_
  rw [reductionOn]
  by_cases hreduces : i.isComplete ∧ i.production ≠ 0 ∧
      s ∈ (g.follow.find? i.rule.name).getD []
  · have hnumber := h.consistent.ruleNumber?_eq_some_idxOf (h.rule_mem_rules hi hreduces.2.1)
    simp [hreduces, hnumber]
  · rw [if_neg hreduces, if_neg (by simpa using hreduces)]

/-- No action is lost and none is added. -/
theorem actions_eq_slrActions (h : Tabulated g a full m t) (n : Nat) (s : Symbol) :
    t.actions n s = slrActions g m n s := by
  rw [h.cells.2.2, h.moveActions_eq, h.reductions_eq, slrActions]

end Tabulated

/-! ### Cells -/

/-- A cell shows a list of actions: it is absent if there are none, and is the action itself if
there is one. Several actions compete in it, in their order. -/
structure Cell.Shows {ν : Type} (cell : Option (Cell ν)) (actions : List (Action ν)) : Prop where
  absent : cell = none ↔ actions = []
  single : ∀ action, cell = some (.single action) ↔ actions = [action]
  conflict : ∀ parts, cell = some (.conflict parts) ↔
    2 ≤ actions.length ∧ parts = actions.map .single

theorem Cell.shows_ofActions? {ν : Type} (actions : List (Action ν)) :
    Cell.Shows (Cell.ofActions? actions) actions := by
  match actions with
  | [] => exact ⟨by simp [ofActions?], by simp [ofActions?], by simp [ofActions?]⟩
  | [a] => exact ⟨by simp [ofActions?], by simp [ofActions?], by simp [ofActions?]⟩
  | a :: b :: rest =>
    have hseveral : ofActions? (a :: b :: rest) = some (.conflict ((a :: b :: rest).map .single)) :=
      rfl
    rw [hseveral]
    refine ⟨by simp, by simp, fun parts => ?_⟩
    rw [Option.some.injEq, Cell.conflict.injEq, eq_comm]
    simp

/-! ### Exact tables -/

/-- A table that shows the actions called for in each of its cells, and that notes the cells with
more than one. -/
structure Table.IsExact (t : Table) (g : Grammar) (m : Automaton) : Prop where
  /-- A state has at most one transition on a symbol. -/
  goto_iff : ∀ n s k, m.goto n s = some k ↔ ⟨n, s, k⟩ ∈ m.transitions
  /-- Items of productions that are not the start production are of rules of the grammar. -/
  rule_mem_rules : ∀ n, ∀ i ∈ itemsAt m n, i.production ≠ 0 → i.rule ∈ g.rules
  size_eq : t.size = m.states.length
  cell : ∀ n s, n < m.states.length →
    ∃ cell, t.cellAt n s = .ok cell ∧ Cell.Shows cell (slrActions g m n s)
  hasConflict_iff : t.hasConflict = true ↔
    ∃ n s, n < m.states.length ∧ 2 ≤ (slrActions g m n s).length
  nodup_conflicts : t.conflicts.Nodup
  mem_conflicts_iff : ∀ n s, (n, s) ∈ t.conflicts ↔
    n < m.states.length ∧ 2 ≤ (slrActions g m n s).length

theorem Tabulated.isExact {g : Grammar} {a : Augmented} {full : Bool} {m : Automaton} {t : Table}
    (h : Tabulated g a full m t) : t.IsExact g m := by
  obtain ⟨hsize, hnoted, _⟩ := h.cells
  -- Two actions are in no cell but that of a state.
  have hlt : ∀ n s, 2 ≤ (t.actions n s).length → n < m.states.length := fun n s htwo => by
    have hpos : 0 < (t.actions n s).length := by omega
    obtain ⟨action, haction⟩ := List.exists_mem_of_length_pos hpos
    exact h.lt_of_mem_actions haction
  refine ⟨fun n s k => h.built.goto_eq_some_iff, fun n i hi => h.rule_mem_rules hi, hsize,
    fun n s hn => ?_, ?_, hnoted.nodup, fun n s => ?_⟩
  · refine ⟨Cell.ofActions? (t.actions n s), ?_, ?_⟩
    · exact bind_eq_ok_iff.mpr ⟨_, h.actionsAt_eq hn, rfl⟩
    · rw [h.actions_eq_slrActions]
      exact Cell.shows_ofActions? _
  · simp only [h.hasConflict_iff, ← h.actions_eq_slrActions]
    exact ⟨fun ⟨n, s, htwo⟩ => ⟨n, s, hlt n s htwo, htwo⟩, fun ⟨n, s, _, htwo⟩ => ⟨n, s, htwo⟩⟩
  · rw [← h.actions_eq_slrActions]
    exact (hnoted.mem_iff n s).trans ⟨fun htwo => ⟨hlt n s htwo, htwo⟩, And.right⟩

/-- The table of a text holds exactly the actions that its automaton and its follow sets call
for. -/
theorem compile_isExact {full : Bool} {text : String} {warnings : List Warning} {c : Compiled}
    (h : compile full text = (warnings, .ok c)) : c.table.IsExact c.grammar c.automaton := by
  obtain ⟨_, htab⟩ := compile_ok h
  exact htab.isExact

/-- A rule that stands twice, and an ambiguous one. The two reductions by the former are in one
cell, and so are a shift and a reduction by the latter. -/
theorem compile_isExact_ambiguous :
    ∃ warnings c, compile false "S -> a | a | S S" = (warnings, .ok c) ∧
      c.table.IsExact c.grammar c.automaton ∧
      slrActions c.grammar c.automaton 1 "$" = [.reduce 0, .reduce 0] ∧
      slrActions c.grammar c.automaton 3 "a" = [.shift 1, .reduce 2] := by
  have hview : (compile false "S -> a | a | S S").2.toOption.map (fun c =>
      (slrActions c.grammar c.automaton 1 "$", slrActions c.grammar c.automaton 3 "a")) =
      some ([.reduce 0, .reduce 0], [.shift 1, .reduce 2]) := by
    decide +kernel
  obtain ⟨warnings, c, hc, hactions⟩ := exists_of_compile _ hview
  obtain ⟨htwice, hboth⟩ := Prod.mk.inj hactions
  exact ⟨warnings, c, hc, compile_isExact hc, htwice, hboth⟩

end ShiftReduce
