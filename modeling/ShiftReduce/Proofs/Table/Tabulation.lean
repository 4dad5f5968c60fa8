/-
Tables of grammars.

A text that compiles gives a grammar with its sets, its automaton and the table that goes with
them. What the table says is read off the automaton's items, and without conflicts it says one
thing only.

* `Tabulated` — a grammar with its sets, its automaton and its table;
* `Tabulated.cells`, `Tabulated.cell_eq` — what the cells hold, and which are noted as conflicts;
* `Tabulated.mem_actions_iff` — which actions a cell holds;
* `Tabulated.hasConflict_iff`, `Tabulated.actions_eq_singleton` — without conflicts, and only then,
  no cell holds two;
* `Tabulated.eq_of_reduces` — no two items reduce before the same symbol;
* `exists_compile`, `compile_ok` — a text with a rule compiles, and what a text compiles to is of
  this kind;
* `Compiled.IsOf`, `isOf_of_compile` — all that is said of what a text compiles to.
-/
import ShiftReduce.Proofs.Automaton.Determinisation
import ShiftReduce.Proofs.Grammar.Diagnosis
import ShiftReduce.Proofs.Grammar.FollowSets
import ShiftReduce.Proofs.Table.Cells
import ShiftReduce.Proofs.Table.Descriptions

namespace ShiftReduce

/-- A grammar with its sets, its automaton and the table of the automaton. -/
structure Tabulated (g : Grammar) (a : Augmented) (full : Bool) (m : Automaton) (t : Table) :
    Prop where
  consistent : g.Consistent
  readable : g.Readable
  first : g.FirstSolved
  follow : g.FollowSolved
  augmented : Augmented.ofGrammar g = .ok a
  built : m.Built g a full
  board : Board.build g m = .ok t.toBoard

namespace Tabulated

variable {g : Grammar} {a : Augmented} {full : Bool} {m : Automaton} {t : Table} {n : Nat}
  {s : Symbol}

/-! ### The cells -/

theorem endMark_not_mem_terminals (h : Tabulated g a full m t) : Symbol.endMark ∉ g.terminals :=
  fun hin => (h.readable.isReadable h.consistent hin).ne_endMark rfl

theorem not_occurs_endMark (h : Tabulated g a full m t) : ¬g.Occurs Symbol.endMark := by
  intro hoccurs
  rcases h.consistent.mem_terminals_or_mem_nonterminals hoccurs with hin | hin
  · exact h.endMark_not_mem_terminals hin
  · have hupper := (h.consistent.mem_nonterminals_iff.mp hin).1
    exact absurd hupper (by decide)

theorem occurs_of_mem_transitions (h : Tabulated g a full m t) {e : Transition}
    (he : e ∈ m.transitions) : g.Occurs e.symbol := by
  obtain ⟨items, _, hitems, _, ⟨i, hi, hnext⟩, _⟩ := h.built.moves e he
  have hvalid := h.built.toCoherent.valid h.built.reached hitems hi
  exact hvalid.occurs_of_mem_rhs h.consistent h.augmented (Item.mem_rhs_of_next? hnext)

theorem cells (h : Tabulated g a full m t) :
    t.size = m.states.length ∧ t.toBoard.Noted ∧ ∀ n s, t.actions n s =
      moveActions g m n s ++ (itemsAt m n).filterMap (reductionOn g s) :=
  Board.build_ok h.built.toCoherent (fun _ he heq =>
    h.not_occurs_endMark (heq ▸ h.occurs_of_mem_transitions he)) h.follow.nodup h.board

/-- A cell is what the moves say, which one reduction after another joins. -/
theorem cell_eq (h : Tabulated g a full m t) (n : Nat) (s : Symbol) :
    t.toBoard.cell n s = ((itemsAt m n).filterMap (reductionOn g s)).foldl
      (fun cell action => some (Cell.join cell action))
      (Cell.ofActions? (moveActions g m n s)) := by
  have hactions : t.toBoard.actions n s =
      moveActions g m n s ++ (itemsAt m n).filterMap (reductionOn g s) := h.cells.2.2 n s
  rw [Board.cell, hactions, Cell.ofActions?_append]

theorem actionsAt_eq (h : Tabulated g a full m t) (hn : n < m.states.length) :
    t.actionsAt n s = .ok (t.actions n s) := by
  have hsize : n < t.size := h.cells.1 ▸ hn
  rw [Table.actionsAt, if_pos ⟨Int.natCast_nonneg n, Int.ofNat_lt.mpr hsize⟩]
  rfl

/-- What the automaton and the follow sets have to say for an action to be in a cell. -/
def Grounds (g : Grammar) (m : Automaton) (n : Nat) (s : Symbol) : Action Nat → Prop
  | .shift k => m.goto n s = some k ∧ s ∈ g.terminals
  | .goto k => m.goto n s = some k ∧ s ∉ g.terminals
  | .reduce rule => ∃ items i, m.states[n]? = some items ∧ i ∈ items ∧ Reduces g i s ∧
    g.ruleNumber? i.rule = some rule
  | .accept => s = Symbol.endMark ∧ m.finalState = some n

theorem grounds_of_mem_moveActions {action : Action Nat} (h : action ∈ moveActions g m n s) :
    Grounds g m n s action := by
  unfold moveActions at h
  split at h
  · next hs =>
    split at h
    · next hfinal =>
      obtain rfl := List.mem_singleton.mp h
      exact ⟨hs, hfinal⟩
    · cases h
  · split at h
    · cases h
    · next k hgoto =>
      by_cases hs : s ∈ g.terminals
      · rw [if_pos hs] at h
        obtain rfl := List.mem_singleton.mp h
        exact ⟨hgoto, hs⟩
      · rw [if_neg hs] at h
        obtain rfl := List.mem_singleton.mp h
        exact ⟨hgoto, hs⟩

/-- A cell holds exactly the actions that there are grounds for. -/
theorem mem_actions_iff (h : Tabulated g a full m t) {action : Action Nat} :
    action ∈ t.actions n s ↔ Grounds g m n s action := by
  obtain ⟨_, _, hcells⟩ := h.cells
  rw [hcells, List.mem_append]
  constructor
  · rintro (hmem | hmem)
    · exact grounds_of_mem_moveActions hmem
    · obtain ⟨i, hi, haction⟩ := List.mem_filterMap.mp hmem
      obtain ⟨hreduces, rule, hrule, rfl⟩ := reductionOn_eq_some_iff.mp haction
      obtain ⟨items, hitems, hi⟩ := mem_itemsAt_iff.mp hi
      exact ⟨items, i, hitems, hi, hreduces, hrule⟩
  · intro hgrounds
    -- The end of the input is no symbol of the grammar, so that no transition is on it.
    have hne : ∀ {k}, m.goto n s = some k → s ≠ Symbol.endMark := fun hgoto heq =>
      h.not_occurs_endMark (heq ▸ h.occurs_of_mem_transitions (Automaton.mem_of_goto hgoto))
    cases action with
    | shift k =>
      obtain ⟨hgoto, hs⟩ := hgrounds
      rw [moveActions, if_neg (hne hgoto), hgoto]
      simp [hs]
    | goto k =>
      obtain ⟨hgoto, hs⟩ := hgrounds
      rw [moveActions, if_neg (hne hgoto), hgoto]
      simp [hs]
    | reduce rule =>
      obtain ⟨items, i, hitems, hi, hreduces, hrule⟩ := hgrounds
      refine .inr (List.mem_filterMap.mpr ⟨i, mem_itemsAt_iff.mpr ⟨items, hitems, hi⟩, ?_⟩)
      exact reductionOn_eq_some_iff.mpr ⟨hreduces, rule, hrule, rfl⟩
    | accept =>
      obtain ⟨rfl, hfinal⟩ := hgrounds
      rw [moveActions, if_pos rfl, if_pos hfinal]
      exact .inl (List.mem_singleton_self _)

/-- Where there are actions there is a state. -/
theorem lt_of_mem_actions (h : Tabulated g a full m t) {action : Action Nat}
    (haction : action ∈ t.actions n s) : n < m.states.length := by
  by_contra hge
  have hrow : t.rows[n]? = none := List.getElem?_eq_none_iff.mpr (by
    have hsize : t.rows.length = m.states.length := h.cells.1
    omega)
  rw [Table.actions, Board.actions, hrow] at haction
  cases haction

/-! ### Tables without conflicts -/

theorem hasConflict_iff (h : Tabulated g a full m t) :
    t.hasConflict = true ↔ ∃ n s, 2 ≤ (t.actions n s).length := by
  have hmem := h.cells.2.1.mem_iff
  rw [Table.hasConflict, Bool.not_eq_true', List.isEmpty_eq_false_iff, List.ne_nil_iff_exists_cons]
  constructor
  · rintro ⟨⟨n, s⟩, rest, hconflicts⟩
    exact ⟨n, s, (hmem n s).mp (hconflicts ▸ List.mem_cons_self ..)⟩
  · rintro ⟨n, s, htwo⟩
    obtain ⟨c, rest, hconflicts⟩ := List.exists_cons_of_ne_nil
      (List.ne_nil_of_mem ((hmem n s).mpr htwo))
    exact ⟨c, rest, hconflicts⟩

theorem length_actions_le (h : Tabulated g a full m t) (hfree : t.hasConflict = false) (n : Nat)
    (s : Symbol) : (t.actions n s).length ≤ 1 := by
  by_contra hlength
  have htwo : t.hasConflict = true := h.hasConflict_iff.mpr ⟨n, s, by omega⟩
  rw [hfree] at htwo
  cases htwo

/-- A list that has a member and no two places is this member alone. -/
theorem eq_singleton_of_length_le {α : Type} {l : List α} {x : α} (hlength : l.length ≤ 1)
    (hx : x ∈ l) : l = [x] := by
  match l with
  | [] => cases hx
  | [_] => rw [List.mem_singleton.mp hx]
  | _ :: _ :: _ =>
    rw [List.length_cons, List.length_cons] at hlength
    omega

theorem actions_eq_singleton (h : Tabulated g a full m t) (hfree : t.hasConflict = false)
    {action : Action Nat} (haction : Grounds g m n s action) : t.actions n s = [action] :=
  eq_singleton_of_length_le (h.length_actions_le hfree n s) (h.mem_actions_iff.mpr haction)

theorem valid_of_mem_itemsAt (h : Tabulated g a full m t) {i : Item} (hi : i ∈ itemsAt m n) :
    a.Valid i := by
  obtain ⟨items, hitems, hi⟩ := mem_itemsAt_iff.mp hi
  exact h.built.valid h.built.reached hitems hi

theorem rule_mem_rules (h : Tabulated g a full m t) {i : Item} (hi : i ∈ itemsAt m n)
    (hzero : i.production ≠ 0) : i.rule ∈ g.rules := by
  obtain ⟨_, p, _, hp, hrule⟩ := (h.valid_of_mem_itemsAt hi).exists_production h.augmented hzero
  exact hrule ▸ List.mem_map_of_mem (List.mem_of_getElem? hp)

/-- The items of a state that have a reduction are those that reduce. -/
theorem reductionOn_isSome_iff (h : Tabulated g a full m t) {i : Item} (hi : i ∈ itemsAt m n) :
    (reductionOn g s i).isSome ↔ Reduces g i s :=
  isSome_reductionOn_iff h.consistent h.augmented (h.valid_of_mem_itemsAt hi)

/-- Beside the action of a transition a cell holds as many reductions as items of the state
reduce. -/
theorem length_actions (h : Tabulated g a full m t) (n : Nat) (s : Symbol) :
    (t.actions n s).length =
      (moveActions g m n s).length + (itemsAt m n).countP fun i => (reductionOn g s i).isSome := by
  rw [h.cells.2.2, List.length_append, List.length_filterMap_eq_countP]

/-- No two items of a state reduce before the same symbol, not even by the same rule. -/
theorem eq_of_reduces (h : Tabulated g a full m t) (hfree : t.hasConflict = false)
    {items : List Item} (hn : m.states[n]? = some items) {i j : Item} (hi : i ∈ items)
    (hj : j ∈ items) (hri : Reduces g i s) (hrj : Reduces g j s) : i = j := by
  have hone : ((itemsAt m n).filter fun i => (reductionOn g s i).isSome).length ≤ 1 := by
    have hlength := h.length_actions_le hfree n s
    rw [h.length_actions, List.countP_eq_length_filter] at hlength
    omega
  have honly : ∀ k ∈ items, Reduces g k s →
      (itemsAt m n).filter (fun i => (reductionOn g s i).isSome) = [k] := by
    intro k hk hreduces
    have hk : k ∈ itemsAt m n := mem_itemsAt_iff.mpr ⟨items, hn, hk⟩
    exact eq_singleton_of_length_le hone
      (List.mem_filter.mpr ⟨hk, (h.reductionOn_isSome_iff hk).mpr hreduces⟩)
  exact (List.cons.inj ((honly i hi hri).symm.trans (honly j hj hrj))).1

end Tabulated

/-! ### Compiled texts -/

/-- A grammar with productions has all its structures, and the same sets with either kind of
state 0. -/
theorem exists_construct {g : Grammar} (hg : g.Consistent) (hreadable : g.Readable)
    (hne : g.productions ≠ []) (hfirst : g.first = ∅) (hfollow : g.follow = ∅)
    (malformed : List Malformed) :
    ∃ first follow a, Grammar.LeastSets { g with first := first, follow := follow } ∧
      ∀ full, ∃ m t,
        construct g malformed full =
          .ok ⟨{ g with first := first, follow := follow }, m, t, malformed⟩ ∧
        Tabulated { g with first := first, follow := follow } a full m t ∧
        t.descriptions.length = m.states.length := by
  obtain ⟨first, follow, hcomputed, hcomputed', hsaturate, hrounds⟩ :=
    Grammar.exists_sets hg hne hfirst hfollow
  have hsolved := Grammar.firstSolved_of_saturate hg hsaturate
  have hg₁ := hg.withSets first g.follow
  have hsolved' := Grammar.followSolved_of_saturate hg₁ hrounds
  have hg' := hg.withSets first follow
  -- The sets are there by now, so they are kept when the table is built.
  have hkept := Grammar.computeFollow_of_followSolved hg' hsolved' hne
  obtain ⟨s, hs⟩ := hg'.exists_start_of_ne_nil hne
  have ha : Augmented.ofGrammar { g with first := first, follow := follow } = .ok ⟨s, g.rules⟩ :=
    Augmented.ofGrammar_eq_ok_iff.mpr ⟨hs, rfl⟩
  have hempty : Symbol.empty ∉ g.terminals := fun ht => (hreadable.isReadable hg ht).ne_empty rfl
  refine ⟨first, follow, ⟨s, g.rules⟩, Grammar.leastSets_of_saturate hg hempty hsaturate hrounds,
    fun full => ?_⟩
  obtain ⟨m, hm, hbuilt⟩ := Automaton.build_ok hg' ha full
  obtain ⟨b, hb⟩ := Board.build_total hg' ha hbuilt fun n hn =>
    (Grammar.mem_of_saturate hg₁ hrounds n).mpr hn
  have hall : ∀ t : Table, t.toBoard = b →
      Tabulated { g with first := first, follow := follow } ⟨s, g.rules⟩ full m t := by
    rintro t rfl
    exact ⟨hg', hreadable, hsolved.withFollow follow, hsolved', ha, hbuilt, hb⟩
  obtain ⟨t, ht, hboard⟩ := Table.ofSets_total hb fun n s rule hrule => by
    obtain ⟨_, _, _, _, _, hnumber⟩ := (hall ⟨b, [], []⟩ rfl).mem_actions_iff.mp hrule
    obtain ⟨p, hp, _⟩ := hg'.exists_of_ruleNumber? hnumber
    exact ⟨p, hp⟩
  have htable := hall t hboard
  refine ⟨m, t, ?_, htable, Table.length_descriptions ht htable.cells.1⟩
  rw [construct, hcomputed]
  dsimp only
  rw [hcomputed']
  refine bind_eq_ok_iff.mpr ⟨_, ha, bind_eq_ok_iff.mpr ⟨m, hm, ?_⟩⟩
  rw [Table.build, hkept]
  exact bind_eq_ok_iff.mpr ⟨t, ht, rfl⟩

/-- What a text compiles to: its grammar with the least sets, the automaton and the table. -/
structure Compiled.IsOf (c : Compiled) (full : Bool) (text : String) : Prop where
  grammar_eq : ∃ first follow,
    c.grammar = { (Grammar.parse text).1 with first := first, follow := follow }
  malformed_eq : c.malformed = (Grammar.parse text).2
  leastSets : c.grammar.LeastSets
  tabulated : ∃ a, Tabulated c.grammar a full c.automaton c.table
  length_descriptions : c.table.descriptions.length = c.automaton.states.length

/-- A text with a rule compiles, to the same grammar with either kind of state 0. -/
theorem exists_compile_isOf {text : String} (hne : (Grammar.parse text).1.productions ≠ []) :
    ∃ g a, ∀ full, ∃ warnings m t,
      compile full text = (warnings, .ok ⟨g, m, t, (Grammar.parse text).2⟩) ∧
      Tabulated g a full m t ∧ Compiled.IsOf ⟨g, m, t, (Grammar.parse text).2⟩ full text := by
  have hg := Grammar.parse_consistent text
  have hreadable := Grammar.parse_readable text
  obtain ⟨hfirst, hfollow⟩ := Grammar.parse_unsolved text
  obtain ⟨first, follow, a, hleast, hall⟩ :=
    exists_construct hg hreadable hne hfirst hfollow (Grammar.parse text).2
  obtain ⟨found, hfound⟩ := grammarWarnings_total hg
  refine ⟨{ (Grammar.parse text).1 with first := first, follow := follow }, a, fun full => ?_⟩
  obtain ⟨m, t, hconstruct, htab, hlength⟩ := hall full
  have hsome : ¬(Grammar.parse text).1.productions.isEmpty := mt List.isEmpty_iff.mp hne
  refine ⟨(Grammar.parse text).2.map Warning.malformed ++ found ++ tableWarnings t, m, t, ?_, htab,
    ⟨first, follow, rfl⟩, rfl, hleast, ⟨a, htab⟩, hlength⟩
  rw [compile]
  dsimp only
  rw [if_neg hsome, hfound]
  dsimp only
  rw [hconstruct]

theorem exists_compile {text : String} (hne : (Grammar.parse text).1.productions ≠ []) :
    ∃ g a, ∀ full, ∃ warnings m t,
      compile full text = (warnings, .ok ⟨g, m, t, (Grammar.parse text).2⟩) ∧
      Tabulated g a full m t := by
  obtain ⟨g, a, hall⟩ := exists_compile_isOf hne
  refine ⟨g, a, fun full => ?_⟩
  obtain ⟨warnings, m, t, hcompile, htab, _⟩ := hall full
  exact ⟨warnings, m, t, hcompile, htab⟩

theorem productions_ne_nil_of_compile {full : Bool} {text : String} {warnings : List Warning}
    {c : Compiled} (h : compile full text = (warnings, .ok c)) :
    (Grammar.parse text).1.productions ≠ [] := by
  intro hnone
  rw [compile] at h
  dsimp only at h
  rw [if_pos (List.isEmpty_iff.mpr hnone)] at h
  cases (Prod.mk.inj h).2

theorem isOf_of_compile {full : Bool} {text : String} {warnings : List Warning} {c : Compiled}
    (h : compile full text = (warnings, .ok c)) : c.IsOf full text := by
  obtain ⟨g, a, hall⟩ := exists_compile_isOf (productions_ne_nil_of_compile h)
  obtain ⟨warnings', m, t, hcompile, _, hof⟩ := hall full
  obtain rfl := Except.ok.inj (Prod.mk.inj (hcompile.symm.trans h)).2
  exact hof

/-- What a text compiles to is a grammar with its sets, its automaton and its table. -/
theorem compile_ok {full : Bool} {text : String} {warnings : List Warning} {c : Compiled}
    (h : compile full text = (warnings, .ok c)) :
    ∃ a, Tabulated c.grammar a full c.automaton c.table := (isOf_of_compile h).tabulated

/-- A view of what a text compiles to shows that it compiles. -/
theorem exists_of_compile {full : Bool} {text : String} {α : Type} (view : Compiled → α) {x : α}
    (h : (compile full text).2.toOption.map view = some x) :
    ∃ warnings c, compile full text = (warnings, .ok c) ∧ view c = x := by
  obtain ⟨c, hc, hview⟩ := exists_of_toOption h
  exact ⟨_, c, Prod.ext rfl hc, hview⟩

end ShiftReduce
