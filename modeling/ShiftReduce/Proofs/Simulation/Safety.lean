/-
Nothing goes wrong on the way.

A machine without conflicts whose state 0 is closed from the start item only never looks for
something that is not there: its stack is a path of the automaton, its input ends with the mark that
is never shifted, and a right side that is reduced lies on top of a state with a goto on the name.

* `Configuration.Safe` — what is there in a configuration on the way through a text;
* `Tabulated.safe_of_runs` — every configuration that is reached is of this kind;
* `simulate_never_faults` — on terminals the only way to get no trace is to be given too few steps.
-/
import ShiftReduce.Proofs.Simulation.Correctness

namespace ShiftReduce

open ShiftReduce.Configuration (topState)

/-- Configurations on the way through a text in which nothing is missing. -/
structure Configuration.Safe (g : Grammar) (m : Automaton) (t : Table) (w : List Symbol)
    (c : Configuration) : Prop where
  /-- The states of the stack are those that the transitions on its symbols lead to. -/
  onPath : m.OnPath c.stack
  /-- What is left of the text stands before the mark for its end. -/
  input : ∃ u rest, w = u ++ rest ∧ c.input = rest ++ [Symbol.endMark]
  /-- The right side of a production that is reduced lies on top of the stack, and the state below
  it has a goto on the name. -/
  reduction : ∀ n r, c.move g t = .ok (.reduce n r) →
    (∃ p, g.productions[n]? = some p ∧ p.toRule = r) ∧ r.rhs.length ≤ c.stack.length ∧
      wordOf (c.stack.take r.rhs.length) = r.rhs ∧
      ∃ k, t.actions (topState (c.stack.drop r.rhs.length)) r.name = [.goto k]
  /-- Neither finding the move nor making it fails. -/
  not_faults : ¬Faults g t c

namespace Tabulated

variable {g : Grammar} {a : Augmented} {m : Automaton} {t : Table} {w : List Symbol}

/-- The right side that is reduced is there, and so is the goto behind it. -/
theorem reduction_ready (h : Tabulated g a false m t) (hfree : t.hasConflict = false)
    {c : Configuration} (hstack : m.OnPath c.stack) {n : Nat} {r : Rule}
    (hmove : c.move g t = .ok (.reduce n r)) :
    (∃ p, g.productions[n]? = some p ∧ p.toRule = r) ∧ r.rhs.length ≤ c.stack.length ∧
      wordOf (c.stack.take r.rhs.length) = r.rhs ∧
      ∃ k, t.actions (topState (c.stack.drop r.rhs.length)) r.name = [.goto k] := by
  obtain ⟨stack, input⟩ := c
  dsimp only at hstack ⊢
  cases input with
  | nil => cases hmove
  | cons s rest =>
    rcases h.move_cases hstack s rest with
      ⟨k, hshift, _⟩ | ⟨n', i, hreduce, hn, hi, hreduces⟩ | ⟨haccept, _⟩ | hreject
    · cases hmove.symm.trans hshift
    · obtain ⟨rfl, rfl⟩ := Move.reduce.inj (Except.ok.inj (hmove.symm.trans hreduce))
      obtain ⟨v, hv, _⟩ := hstack.exposed hi hreduces.isComplete
      obtain ⟨k, hgoto⟩ := h.exists_goto_of_reduces hstack hi hreduces
      have hname := h.name_mem_nonterminals (valid_of_mem_eval hi) hreduces.production_ne_zero
      exact ⟨h.consistent.exists_of_ruleNumber? hn, length_le_of_wordOf_eq hv, wordOf_take hv, k,
        h.actions_goto hfree hname hgoto⟩
    · cases hmove.symm.trans haccept
    · cases hmove.symm.trans hreject

/-- The input of a configuration on the way is never used up, so there is a move and the
configuration after it. -/
theorem not_faults_of_parsed (h : Tabulated g a false m t) (hfree : t.hasConflict = false)
    {moves : List Move} {c : Configuration} (hc : Parsed g m w moves c) : ¬Faults g t c := by
  obtain ⟨hstack, _, rest, _, hinput, _⟩ := hc
  obtain ⟨s, rest', hnext⟩ : ∃ s rest', c.input = s :: rest' := by
    rw [hinput]
    exact List.exists_cons_of_ne_nil (List.append_ne_nil_of_right_ne_nil _ (List.cons_ne_nil _ _))
  obtain ⟨move, next, hmove, hafter⟩ := h.exists_after hfree hstack s rest'
  rw [← hnext] at hmove hafter
  exact not_faults_of_after hmove hafter

theorem safe_of_runs (h : Tabulated g a false m t) (hfree : t.hasConflict = false)
    {moves : List Move} {c : Configuration} (hruns : Runs g t moves (startOn w) c) :
    c.Safe g m t w := by
  have hc := h.parsed_of_runs (parsed_startOn g m w) hruns
  obtain ⟨u, rest, hw, hinput, _⟩ := hc.read
  exact ⟨hc.onPath, ⟨u, rest, hw, hinput⟩, fun _ _ => h.reduction_ready hfree hc.onPath,
    h.not_faults_of_parsed hfree hc⟩

end Tabulated

/-- In every configuration that is reached on a text of terminals nothing is missing, so that the
only way to get no trace is to be given too few steps. -/
theorem simulate_never_faults {text : String} {warnings : List Warning} {c : Compiled}
    (hc : compile false text = (warnings, .ok c)) (hfree : c.table.hasConflict = false)
    {w : List Symbol} (hw : ∀ s ∈ w, s ∈ c.grammar.terminals) :
    (∀ moves reached, Runs c.grammar c.table moves (startOn w) reached →
      reached.Safe c.grammar c.automaton c.table w) ∧
    ∀ limit fault, simulate c.grammar c.table limit (Text.unwords w) = .error fault →
      fault = .unfinished limit := by
  obtain ⟨a, htable⟩ := compile_ok hc
  refine ⟨fun moves reached hruns => htable.safe_of_runs hfree hruns, fun limit fault hfault => ?_⟩
  rw [htable.simulate_unwords hfree hw] at hfault
  obtain ⟨moves, last, hruns, hcases⟩ := run_cases c.grammar c.table limit (startOn w)
  rcases hcases with ⟨hnone, _⟩ | ⟨_, steps, hsome, _⟩ | ⟨_, _, hfaults⟩
  · rw [hnone] at hfault
    exact (Except.error.inj hfault).symm
  · rw [hsome] at hfault
    cases hfault
  · exact absurd hfaults (htable.safe_of_runs hfree hruns).not_faults

/-- Brackets that can be empty, a name without an end, and a text with a bracket too many. -/
theorem simulate_never_faults_brackets :
    ∃ warnings c, compile false "S -> A A -> ( A ) A | ε B -> B x" = (warnings, .ok c) ∧
      c.table.hasConflict = false ∧ (∀ s ∈ ["(", ")", ")"], s ∈ c.grammar.terminals) ∧
      (∀ moves reached, Runs c.grammar c.table moves (startOn ["(", ")", ")"]) reached →
        reached.Safe c.grammar c.automaton c.table ["(", ")", ")"]) ∧
      ∀ limit fault, simulate c.grammar c.table limit (Text.unwords ["(", ")", ")"]) =
        .error fault → fault = .unfinished limit := by
  have hcompiled : (compile false "S -> A A -> ( A ) A | ε B -> B x").2.toOption.map
      (fun c => (c.table.hasConflict, c.grammar.terminals.keys)) =
      some (false, ["(", ")", "x"]) := by
    decide +kernel
  obtain ⟨warnings, c, hc, hview⟩ := exists_of_compile _ hcompiled
  obtain ⟨hfree, hkeys⟩ := Prod.mk.inj hview
  have hw : ∀ s ∈ ["(", ")", ")"], s ∈ c.grammar.terminals := by
    intro s hs
    rw [Assoc.mem_def, hkeys]
    revert s
    decide
  exact ⟨warnings, c, hc, hfree, hw, simulate_never_faults hc hfree hw⟩

end ShiftReduce
