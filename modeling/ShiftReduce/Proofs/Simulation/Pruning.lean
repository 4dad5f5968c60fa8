/-
Tables with and without the rules that are out of reach.

With the start item alone in state 0 no item of a rule that is out of reach is ever met, so that the
automaton has the same states without these rules. But they count for the FOLLOW sets, and a rule of
a reached name can reduce before more symbols because of them. These reductions are all that the
table has beyond the one without the rules: if none of them meets another action there are conflicts
in both tables or in none, and without conflicts both accept the same sentences.

* `Reduces.of_renumber`, `Reduces.renumber` — items that reduce;
* `Tabulated.length_actions_le_of_follow`, `Tabulated.length_actions_eq_of_follow` — the cells of
  the two tables;
* `Compiled.Intrudes` — a reduction before a symbol that is there only because of these rules, in a
  cell that holds something else too;
* `Compiled.PrunesTo`, `compile_pruned` — what the two tables have in common;
* `compile_pruned_refuses` — and that the one can have a conflict where the other has none.
-/
import ShiftReduce.Proofs.Grammar.Pruning
import ShiftReduce.Proofs.Simulation.Agreement
import ShiftReduce.Proofs.Simulation.Renumbering

namespace ShiftReduce

/-! ### Cells -/

section Cells

variable {σ φ : Equiv.Perm Nat} {g g' : Grammar} {a a' : Augmented} {full : Bool}
  {m m' : Automaton} {t t' : Table} {n : Nat} {s : Symbol} {i : Item}

theorem Reduces.of_renumber (h : Reduces g' (Item.renumber σ i) s)
    (hfollow : ∀ n x, g'.follow.Has n x → g.follow.Has n x) : Reduces g i s :=
  ⟨h.isComplete, mt Item.production_renumber_eq_zero_iff.mpr h.production_ne_zero,
    hfollow _ _ h.has_follow⟩

theorem Reduces.renumber (h : Reduces g i s) (hfollow : g'.follow.Has i.rule.name s) :
    Reduces g' (Item.renumber σ i) s :=
  ⟨h.isComplete, mt Item.production_renumber_eq_zero_iff.mp h.production_ne_zero, hfollow⟩

theorem renumber_mem_itemsAt (hm : m.Renumbered σ φ m') (hi : i ∈ itemsAt m n) :
    Item.renumber σ i ∈ itemsAt m' (φ n) :=
  (itemsAt_renumber hm n).mem_iff.mpr (List.mem_map_of_mem hi)

namespace Tabulated

/-- The actions of a cell, counted by the items of the other automaton. -/
theorem length_actions_renumber (ht' : Tabulated g' a' full m' t') (hm : m.Renumbered σ φ m')
    (n : Nat) (s : Symbol) : (t'.actions (φ n) s).length = (moveActions g m n s).length +
      (itemsAt m n).countP fun i => (reductionOn g' s (Item.renumber σ i)).isSome := by
  rw [ht'.length_actions, length_moveActions_renumber hm, (itemsAt_renumber hm n).countP_eq,
    List.countP_map]
  rfl

variable (ht : Tabulated g a full m t) (ht' : Tabulated g' a' full m' t')
  (hm : m.Renumbered σ φ m') (hfollow : ∀ n x, g'.follow.Has n x → g.follow.Has n x)

include ht ht' hm hfollow

/-- With smaller FOLLOW sets no cell has more actions. -/
theorem length_actions_le_of_follow (n : Nat) (s : Symbol) :
    (t'.actions (φ n) s).length ≤ (t.actions n s).length := by
  rw [ht'.length_actions_renumber hm, ht.length_actions]
  refine Nat.add_le_add_left (List.countP_mono_left fun i hi hsome => ?_) _
  have hreduces := (ht'.reductionOn_isSome_iff (renumber_mem_itemsAt hm hi)).mp hsome
  exact (ht.reductionOn_isSome_iff hi).mpr (hreduces.of_renumber hfollow)

/-- A cell has as many actions if all items that reduce have the symbol in the smaller set too. -/
theorem length_actions_eq_of_follow
    (hkept : ∀ i ∈ itemsAt m n, Reduces g i s → g'.follow.Has i.rule.name s) :
    (t'.actions (φ n) s).length = (t.actions n s).length := by
  refine Nat.le_antisymm (ht.length_actions_le_of_follow ht' hm hfollow n s) ?_
  rw [ht'.length_actions_renumber hm, ht.length_actions]
  refine Nat.add_le_add_left (List.countP_mono_left fun i hi hsome => ?_) _
  have hreduces := (ht.reductionOn_isSome_iff hi).mp hsome
  exact (ht'.reductionOn_isSome_iff (renumber_mem_itemsAt hm hi)).mpr
    (hreduces.renumber (hkept i hi hreduces))

theorem hasConflict_of_follow (hconflict : t'.hasConflict = true) : t.hasConflict = true := by
  obtain ⟨n', s, htwo⟩ := ht'.hasConflict_iff.mp hconflict
  obtain ⟨n, rfl⟩ := φ.surjective n'
  exact ht.hasConflict_iff.mpr
    ⟨n, s, htwo.trans (ht.length_actions_le_of_follow ht' hm hfollow n s)⟩

end Tabulated

end Cells

/-! ### Conflicts -/

/-- An item reduces before a symbol that is in the FOLLOW set of its name only with the rules of the
first grammar, and the cell holds something else too. -/
def Compiled.Intrudes (c c' : Compiled) : Prop :=
  ∃ n s, ∃ i ∈ itemsAt c.automaton n, Reduces c.grammar i s ∧
    ¬c'.grammar.follow.Has i.rule.name s ∧ 2 ≤ (c.table.actions n s).length

/-- What is compiled of a grammar, and what is compiled without the rules that are out of reach. -/
structure Compiled.PrunesTo (c c' : Compiled) : Prop where
  /-- The rules that are left out take no part in derivations from the start symbol. -/
  derives_iff : ∀ s, c.grammar.start = some s → ∀ row,
    Derives c'.grammar.rules [s] row ↔ Derives c.grammar.rules [s] row
  /-- They take no part in the automaton either. -/
  automaton : ∃ σ φ, c.automaton.Renumbered σ φ c'.automaton
  /-- But they can put symbols behind the names that are left. -/
  has_follow : ∀ n x, c'.grammar.follow.Has n x → c.grammar.follow.Has n x
  /-- They make conflicts by intrusion only, and remove none. -/
  hasConflict_iff : c.table.hasConflict = true ↔ c'.table.hasConflict = true ∨ c.Intrudes c'
  /-- So there is no difference if the names that are left are followed by nothing new. -/
  hasConflict_eq : (∀ n ∈ c'.grammar.nonterminals, ∀ x, c.grammar.follow.Has n x →
    c'.grammar.follow.Has n x) → c.table.hasConflict = c'.table.hasConflict
  /-- Sentences are refused for a conflict only. -/
  accepts_iff : ∀ w, (∀ t ∈ w, t ∈ c.grammar.terminals) →
    (c.Accepts w ↔ c.table.hasConflict = false ∧ c'.Accepts w)

namespace Tabulated

variable {σ φ : Equiv.Perm Nat} {c c' : Compiled} {a a' : Augmented} {full : Bool}

theorem hasConflict_iff_intrudes (ht : Tabulated c.grammar a full c.automaton c.table)
    (ht' : Tabulated c'.grammar a' full c'.automaton c'.table)
    (hm : c.automaton.Renumbered σ φ c'.automaton)
    (hfollow : ∀ n x, c'.grammar.follow.Has n x → c.grammar.follow.Has n x) :
    c.table.hasConflict = true ↔ c'.table.hasConflict = true ∨ c.Intrudes c' := by
  constructor
  · intro hconflict
    obtain ⟨n, s, htwo⟩ := ht.hasConflict_iff.mp hconflict
    by_cases hintrudes : c.Intrudes c'
    · exact .inr hintrudes
    · have hkept : ∀ i ∈ itemsAt c.automaton n, Reduces c.grammar i s →
          c'.grammar.follow.Has i.rule.name s := fun i hi hreduces =>
        by_contra fun hnew => hintrudes ⟨n, s, i, hi, hreduces, hnew, htwo⟩
      refine .inl (ht'.hasConflict_iff.mpr ⟨φ n, s, ?_⟩)
      rwa [ht.length_actions_eq_of_follow ht' hm hfollow hkept]
  · rintro (hconflict | ⟨n, s, _, _, _, _, htwo⟩)
    · exact ht.hasConflict_of_follow ht' hm hfollow hconflict
    · exact ht.hasConflict_iff.mpr ⟨n, s, htwo⟩

/-- Nothing intrudes if the names that are left are followed by nothing new. -/
theorem not_intrudes (ht' : Tabulated c'.grammar a' full c'.automaton c'.table)
    (hm : c.automaton.Renumbered σ φ c'.automaton)
    (hsame : ∀ n ∈ c'.grammar.nonterminals, ∀ x, c.grammar.follow.Has n x →
      c'.grammar.follow.Has n x) : ¬c.Intrudes c' := by
  rintro ⟨n, s, i, hi, hreduces, hnew, _⟩
  have hmem := ht'.rule_mem_rules (renumber_mem_itemsAt hm hi)
    (mt Item.production_renumber_eq_zero_iff.mp hreduces.production_ne_zero)
  obtain ⟨p, hp, hrule⟩ := List.mem_map.mp hmem
  have hname : i.rule.name ∈ c'.grammar.nonterminals := by
    rw [show i.rule.name = p.name from (congrArg Rule.name hrule).symm]
    exact ht'.consistent.name_mem_nonterminals hp
  exact hnew (hsame i.rule.name hname s hreduces.has_follow)

/-- A table accepts what the one without the rules does, unless it has conflicts. -/
theorem accepts_pruned_iff (ht : Tabulated c.grammar a full c.automaton c.table)
    (ht' : Tabulated c'.grammar a' full c'.automaton c'.table)
    (h : Grammar.Pruned σ c.grammar c'.grammar)
    (hfree : c.table.hasConflict = false → c'.table.hasConflict = false) {w : List Symbol}
    (hw : ∀ t ∈ w, t ∈ c.grammar.terminals) :
    c.Accepts w ↔ c.table.hasConflict = false ∧ c'.Accepts w := by
  have hsentence := h.isSentence_iff ht.consistent ht'.consistent (w := w)
  constructor
  · intro haccepts
    have hnone := haccepts.hasConflict_eq_false
    have hw' := hsentence.mpr ((ht.accepts_iff_isSentence hnone hw).mp haccepts)
    exact ⟨hnone, (ht'.accepts_iff_isSentence (hfree hnone) hw'.1).mpr hw'⟩
  · rintro ⟨hnone, haccepts⟩
    -- What is accepted is cut into the same words, and they are terminals.
    have hwords := haccepts.mem_terminals
    rw [ht.wordsOf_unwords hw] at hwords
    have hw' := (ht'.accepts_iff_isSentence (hfree hnone) hwords).mp haccepts
    exact (ht.accepts_iff_isSentence hnone hw).mpr (hsentence.mp hw')

end Tabulated

/-- With the start item alone in state 0, a grammar and what is left of it without the rules that
are out of reach have the same automaton but for numbers. -/
theorem Grammar.Pruned.prunesTo {σ : Equiv.Perm Nat} {c c' : Compiled} {a a' : Augmented}
    (h : Grammar.Pruned σ c.grammar c'.grammar) (hleast : c.grammar.LeastSets)
    (hleast' : c'.grammar.LeastSets) (ht : Tabulated c.grammar a false c.automaton c.table)
    (ht' : Tabulated c'.grammar a' false c'.automaton c'.table) : c.PrunesTo c' := by
  have hfollow : ∀ n x, c'.grammar.follow.Has n x → c.grammar.follow.Has n x :=
    fun _ _ => h.has_follow (ht.settled hleast) (ht'.settled hleast')
  obtain ⟨φ, hm⟩ := h.keeps.exists_renumbered h.back (fun hfull => absurd hfull Bool.false_ne_true)
    ht.consistent ht'.consistent ht.augmented ht'.augmented ht.built ht'.built
  have hiff := ht.hasConflict_iff_intrudes ht' hm hfollow
  refine ⟨fun s hs row => h.derives_iff hs, ⟨σ, φ, hm⟩, hfollow, hiff, fun hsame => ?_,
    fun w hw => ?_⟩
  · exact Bool.eq_iff_iff.mpr (hiff.trans (or_iff_left (ht'.not_intrudes hm hsame)))
  · refine ht.accepts_pruned_iff ht' h (fun hnone => ?_) hw
    by_contra hconflict
    rw [hiff.mpr (.inl (Bool.not_eq_false _ ▸ hconflict))] at hnone
    cases hnone

/-- A text with a rule compiles, and so does what is left of its grammar without the rules that are
out of reach. The one table has conflicts where the other has none only by a reduction before a
symbol that those rules put into a FOLLOW set. -/
theorem compile_pruned {text : String} (hne : (Grammar.parse text).1.productions ≠ []) :
    ∃ warnings c c', compile false text = (warnings, .ok c) ∧
      construct (Grammar.parse text).1.pruned [] false = .ok c' ∧ c.PrunesTo c' := by
  have hg := Grammar.parse_consistent text
  obtain ⟨hfirst, hfollow⟩ := Grammar.unsolved_pruned hg
  obtain ⟨_, _, hall⟩ := exists_compile_isOf hne
  obtain ⟨warnings, m, t, hcompile, ht, hof⟩ := hall false
  obtain ⟨first', follow', a', hleast', hall'⟩ := exists_construct (Grammar.consistent_pruned hg)
    (Grammar.readable_pruned (Grammar.parse_readable text))
    (Grammar.productions_pruned_ne_nil hg hne) hfirst hfollow []
  obtain ⟨m', t', hconstruct, ht', _⟩ := hall' false
  obtain ⟨first, follow, hsets⟩ := hof.grammar_eq
  obtain ⟨σ, hpruned⟩ := Grammar.exists_pruned ht.consistent
  refine ⟨warnings, _, _, hcompile, hconstruct, ?_⟩
  have h := hpruned first' follow'
  rw [show Grammar.pruned _ = (Grammar.parse text).1.pruned from
    (congrArg Grammar.pruned hsets).trans (Grammar.pruned_withSets _ first follow)] at h
  exact Grammar.Pruned.prunesTo h hof.leastSets hleast' ht ht'

/-- Sums, and a rule that is out of reach, by which a term can end a statement. Terms are reduced
before one more symbol, where nothing else is to be done. -/
theorem compile_pruned_sums :
    (Grammar.parse "E -> E + T | T T -> x U -> T ;").1.productions ≠ [] ∧
      ∃ warnings c c', compile false "E -> E + T | T T -> x U -> T ;" = (warnings, .ok c) ∧
        construct (Grammar.parse "E -> E + T | T T -> x U -> T ;").1.pruned [] false = .ok c' ∧
        c.PrunesTo c' ∧ c.grammar.follow.find? "T" = some ["$", "+", ";"] ∧
        c'.grammar.follow.find? "T" = some ["$", "+"] ∧ c.table.hasConflict = false ∧
        c'.table.hasConflict = false ∧ c.Accepts ["x", "+", "x"] ∧ c'.Accepts ["x", "+", "x"] := by
  have hne : (Grammar.parse "E -> E + T | T T -> x U -> T ;").1.productions ≠ [] := by
    decide +kernel
  have hview : (compile false "E -> E + T | T T -> x U -> T ;").2.toOption.map (fun c =>
      (c.grammar.terminals.keys, c.grammar.follow.find? "T", c.table.hasConflict,
        (c.simulate 8 "x + x").toOption.map Trace.accepted)) =
      some (["+", "x", ";"], some ["$", "+", ";"], false, some true) := by
    decide +kernel
  have hview' : (construct (Grammar.parse "E -> E + T | T T -> x U -> T ;").1.pruned []
      false).toOption.map (fun c => c.grammar.follow.find? "T") = some (some ["$", "+"]) := by
    decide +kernel
  obtain ⟨warnings, c, c', hc, hc', hprunes⟩ := compile_pruned hne
  rw [hc] at hview
  rw [hc'] at hview'
  obtain ⟨hkeys, hview⟩ := Prod.mk.inj (Option.some.inj hview)
  obtain ⟨hfollow, hview⟩ := Prod.mk.inj hview
  obtain ⟨hfree, haccepted⟩ := Prod.mk.inj hview
  have hw : ∀ t ∈ ["x", "+", "x"], t ∈ c.grammar.terminals := by
    intro t ht
    rw [Assoc.mem_def, hkeys]
    revert t
    decide
  have haccepts : c.Accepts ["x", "+", "x"] := ⟨8, exists_of_toOption haccepted⟩
  have haccepts' := ((hprunes.accepts_iff _ hw).mp haccepts).2
  exact ⟨hne, warnings, c, c', hc, hc', hprunes, hfollow, Option.some.inj hview', hfree,
    haccepts'.hasConflict_eq_false, haccepts, haccepts'⟩

/-- A rule that is out of reach lets a name be followed by what is to be read where the name can be
reduced. The table with this rule has a conflict and refuses what the one without it accepts. -/
theorem compile_pruned_refuses :
    ∃ warnings c c', compile false "S -> A c | a b A -> a U -> A b" = (warnings, .ok c) ∧
      construct (Grammar.parse "S -> A c | a b A -> a U -> A b").1.pruned [] false = .ok c' ∧
      (Grammar.parse "S -> A c | a b A -> a U -> A b").1.unreachable = ["U"] ∧
      c.table.hasConflict = true ∧ c'.table.hasConflict = false ∧ c'.Accepts ["a", "b"] ∧
      ¬c.Accepts ["a", "b"] := by
  have hview : (compile false "S -> A c | a b A -> a U -> A b").2.toOption.map (fun c =>
      c.table.hasConflict) = some true := by
    decide +kernel
  have hview' : (construct (Grammar.parse "S -> A c | a b A -> a U -> A b").1.pruned []
      false).toOption.map (fun c => (c.simulate 4 "a b").toOption.map Trace.accepted) =
      some (some true) := by
    decide +kernel
  have hunreachable : (Grammar.parse "S -> A c | a b A -> a U -> A b").1.unreachable = ["U"] := by
    decide +kernel
  obtain ⟨warnings, c, hc, hconflict⟩ := exists_of_compile _ hview
  obtain ⟨c', hc', haccepted⟩ := exists_of_toOption hview'
  have haccepts' : c'.Accepts ["a", "b"] := ⟨4, exists_of_toOption haccepted⟩
  refine ⟨warnings, c, c', hc, hc', hunreachable, hconflict, haccepts'.hasConflict_eq_false,
    haccepts', fun haccepts => ?_⟩
  have hfree := haccepts.hasConflict_eq_false
  rw [hconflict] at hfree
  cases hfree

end ShiftReduce
