/-
Sentences that are accepted with either kind of state 0.

A table without conflicts accepts exactly the sentences, whatever state 0 holds. But with every
production in state 0 a table can have conflicts where the one from the start item alone has none,
and it is refused then.

* `Compiled.Accepts` — some number of steps is enough for acceptance;
* `Tabulated.accepts_iff_isSentence` — without conflicts the sentences are accepted;
* `compile_full_accepts_iff` — with every production in state 0 the same texts are accepted unless
  there are conflicts;
* `compile_full_refuses` — and there can be.
-/
import ShiftReduce.Proofs.Simulation.Refinement

namespace ShiftReduce

/-- Some number of steps is enough for the table to accept a row of symbols. -/
def Compiled.Accepts (c : Compiled) (w : List Symbol) : Prop :=
  ∃ limit trace, c.simulate limit (Text.unwords w) = .ok trace ∧ trace.accepted = true

theorem Compiled.Accepts.hasConflict_eq_false {c : Compiled} {w : List Symbol} (h : c.Accepts w) :
    c.table.hasConflict = false := by
  obtain ⟨_, _, htrace, _⟩ := h
  exact (simulate_eq_ok htrace).1

theorem Compiled.Accepts.mem_terminals {c : Compiled} {w : List Symbol} (h : c.Accepts w) :
    ∀ s ∈ Text.wordsOf (Text.unwords w), s ∈ c.grammar.terminals := by
  obtain ⟨_, _, htrace, _⟩ := h
  exact (simulate_eq_ok htrace).2.1

theorem Tabulated.accepts_iff_isSentence {c : Compiled} {a : Augmented} {full : Bool}
    {w : List Symbol} (h : Tabulated c.grammar a full c.automaton c.table)
    (hfree : c.table.hasConflict = false) (hw : ∀ s ∈ w, s ∈ c.grammar.terminals) :
    c.Accepts w ↔ c.grammar.IsSentence w := by
  constructor
  · rintro ⟨limit, trace, htrace, haccepted⟩
    exact h.isSentence_of_simulate hfree hw htrace haccepted
  · intro hsentence
    obtain ⟨enough, trace, haccepted, hall⟩ := h.simulate_of_isSentence hfree hsentence
    exact ⟨enough, trace, hall enough (Nat.le_refl enough), haccepted⟩

/-- With every production in state 0 the texts are accepted that are accepted with the start item
alone, unless there are conflicts, which refuse them all. -/
theorem compile_full_accepts_iff {text : String} (hne : (Grammar.parse text).1.productions ≠ []) :
    ∃ warnings warnings' c c', compile false text = (warnings, .ok c) ∧
      compile true text = (warnings', .ok c') ∧ c'.grammar = c.grammar ∧
      ∀ w, (∀ s ∈ w, s ∈ c.grammar.terminals) →
        (c'.Accepts w ↔ c'.table.hasConflict = false ∧ c.Accepts w) := by
  obtain ⟨g, a, hall⟩ := exists_compile hne
  obtain ⟨warnings, m, t, hcompile, hplain⟩ := hall false
  obtain ⟨warnings', m', t', hcompile', hfull⟩ := hall true
  refine ⟨warnings, warnings', _, _, hcompile, hcompile', rfl, fun w hw => ?_⟩
  have hboth : t'.hasConflict = false →
      (Compiled.Accepts ⟨g, m', t', (Grammar.parse text).2⟩ w ↔
        Compiled.Accepts ⟨g, m, t, (Grammar.parse text).2⟩ w) := fun hfree =>
    (hfull.accepts_iff_isSentence (c := ⟨g, m', t', _⟩) hfree hw).trans
      (hplain.accepts_iff_isSentence (c := ⟨g, m, t, _⟩)
        (Twin.hasConflict_plain ⟨hplain, hfull⟩ hfree) hw).symm
  constructor
  · intro haccepts
    have hfree := haccepts.hasConflict_eq_false
    exact ⟨hfree, (hboth hfree).mp haccepts⟩
  · rintro ⟨hfree, haccepts⟩
    exact (hboth hfree).mpr haccepts

/-- Nested lists. There are more states with every production in state 0, and no conflict. -/
theorem compile_full_accepts_iff_lists :
    (Grammar.parse "E -> x | ( L ) L -> E | L , E").1.productions ≠ [] ∧
      ∃ warnings warnings' c c',
        compile false "E -> x | ( L ) L -> E | L , E" = (warnings, .ok c) ∧
        compile true "E -> x | ( L ) L -> E | L , E" = (warnings', .ok c') ∧
        c'.grammar = c.grammar ∧
        (∀ w, (∀ s ∈ w, s ∈ c.grammar.terminals) →
          (c'.Accepts w ↔ c'.table.hasConflict = false ∧ c.Accepts w)) ∧
        c.automaton.states.length = 9 ∧ c'.automaton.states.length = 10 ∧
        c'.table.hasConflict = false := by
  have hne : (Grammar.parse "E -> x | ( L ) L -> E | L , E").1.productions ≠ [] := by
    decide +kernel
  have hplain : (compile false "E -> x | ( L ) L -> E | L , E").2.toOption.map (fun c =>
      c.automaton.states.length) = some 9 := by
    decide +kernel
  have hfull : (compile true "E -> x | ( L ) L -> E | L , E").2.toOption.map (fun c =>
      (c.automaton.states.length, c.table.hasConflict)) = some (10, false) := by
    decide +kernel
  obtain ⟨warnings, warnings', c, c', hc, hc', heq, hiff⟩ := compile_full_accepts_iff hne
  rw [hc] at hplain
  rw [hc'] at hfull
  obtain ⟨hlength', hfree⟩ := Prod.mk.inj (Option.some.inj hfull)
  exact ⟨hne, warnings, warnings', c, c', hc, hc', heq, hiff, Option.some.inj hplain, hlength',
    hfree⟩

/-- A name that can be empty, between two terminals. With every production in state 0 there is a
reduction to the name where the first of them is to be read. -/
theorem compile_full_refuses :
    ∃ warnings warnings' c c', compile false "S -> a A a A -> ε" = (warnings, .ok c) ∧
      compile true "S -> a A a A -> ε" = (warnings', .ok c') ∧
      (∀ s ∈ ["a", "a"], s ∈ c.grammar.terminals) ∧ c.Accepts ["a", "a"] ∧
      ¬c'.Accepts ["a", "a"] := by
  have hplain : (compile false "S -> a A a A -> ε").2.toOption.map (fun c =>
      (c.grammar.terminals.keys, (c.simulate 5 "a a").toOption.map Trace.accepted)) =
      some (["a"], some true) := by
    decide +kernel
  have hfull : (compile true "S -> a A a A -> ε").2.toOption.map (fun c =>
      (c.table.hasConflict, c.table.actions 0 "a")) = some (true, [.shift 1, .reduce 1]) := by
    decide +kernel
  obtain ⟨warnings, c, hc, hview⟩ := exists_of_compile _ hplain
  obtain ⟨warnings', c', hc', hview'⟩ := exists_of_compile _ hfull
  obtain ⟨hkeys, haccepted⟩ := Prod.mk.inj hview
  obtain ⟨hconflict, _⟩ := Prod.mk.inj hview'
  have hw : ∀ s ∈ ["a", "a"], s ∈ c.grammar.terminals := by
    intro s hs
    rw [Assoc.mem_def, hkeys]
    revert s
    decide
  refine ⟨warnings, warnings', c, c', hc, hc', hw, ?_, fun haccepts => ?_⟩
  · exact ⟨5, exists_of_toOption haccepted⟩
  · have hfree := haccepts.hasConflict_eq_false
    rw [hconflict] at hfree
    cases hfree

end ShiftReduce
