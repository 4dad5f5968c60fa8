/-
Errors are found at the first symbol that can be one.

Where each non-terminal is defined and has an end, what was read begins a sentence, whatever the
text is. When the machine rejects, no sentence goes on with the next symbol: on such a sentence it
would come to the same place with the same stack, and would reject it too.

* `Configuration.Viable`, `Configuration.Refutes` — what was read begins a sentence; no sentence
  goes on as the text does;
* `Tabulated.viable_of_runs` — every configuration that is reached is of the first kind;
* `Tabulated.refutes_of_reject` — a rejection is of the second kind, whether names have ends or not;
* `simulate_rejects_at_first_error` — both, on the rows of a trace.
-/
import ShiftReduce.Proofs.Simulation.Termination

namespace ShiftReduce

/-- What was read of a text begins a sentence. -/
def Configuration.Viable (g : Grammar) (w : List Symbol) (c : Configuration) : Prop :=
  ∃ u rest, w = u ++ rest ∧ c.input = rest ++ [Symbol.endMark] ∧ ∃ v, g.IsSentence (u ++ v)

/-- No sentence begins with what was read and the symbol that comes next; if none comes, what was
read is no sentence. -/
def Configuration.Refutes (g : Grammar) (w : List Symbol) (c : Configuration) : Prop :=
  ∃ u rest, w = u ++ rest ∧ c.input = rest ++ [Symbol.endMark] ∧
    (∀ s rest', rest = s :: rest' → ∀ v, ¬g.IsSentence (u ++ s :: v)) ∧
    (rest = [] → ¬g.IsSentence u)

namespace Tabulated

variable {g : Grammar} {a : Augmented} {full : Bool} {m : Automaton} {t : Table}
  {u v w rest : List Symbol} {moves : List Move} {c : Configuration}

theorem viable_of_runs (h : Tabulated g a false m t) (hfree : t.hasConflict = false)
    (hyields : ∀ xs, (∀ s ∈ xs, g.Occurs s) → ∃ ns y, g.Yields xs ns y)
    (hruns : Runs g t moves (startOn w) c) : c.Viable g w := by
  obtain ⟨u, rest, v, _, _, hw, hinput, hsentence, _⟩ :=
    h.exists_sentence_of_runs hfree hyields hruns
  exact ⟨u, rest, hw, hinput, v, hsentence⟩

/-- A sentence that agrees with a text up to the next symbol is not rejected there. -/
theorem not_isSentence_of_reject (h : Tabulated g a full m t) (hfree : t.hasConflict = false)
    (hruns : Runs g t moves (startOn (u ++ rest)) c) (hinput : c.input = rest ++ [Symbol.endMark])
    (hreject : c.move g t = .ok .reject) (hhead : v.head? = rest.head?) :
    ¬g.IsSentence (u ++ v) := by
  intro hsentence
  obtain ⟨c₀, moves₀, hruns₀, haccept⟩ := h.accepts_of_isSentence hfree hsentence
  -- The moves on the text are made on the sentence too, and lead to the same rejection.
  have hnext : (v ++ [Symbol.endMark]).head? = c.input.head? := by
    rw [hinput, List.head?_append, List.head?_append, hhead]
  have hruns' := hruns.of_same_start hinput hnext
  have hreject' : Configuration.move g t ⟨c.stack, v ++ [Symbol.endMark]⟩ = .ok .reject :=
    (move_congr hnext).trans hreject
  obtain ⟨_, rfl⟩ := hruns₀.unique (halts_of_after haccept rfl) hruns' (halts_of_after hreject' rfl)
  cases haccept.symm.trans hreject'

theorem refutes_of_reject (h : Tabulated g a full m t) (hfree : t.hasConflict = false)
    (hruns : Runs g t moves (startOn w) c) (hreject : c.move g t = .ok .reject) :
    c.Refutes g w := by
  obtain ⟨_, u, rest, rfl, hinput, _⟩ := h.parsed_of_runs (parsed_startOn g m w) hruns
  refine ⟨u, rest, rfl, hinput, ?_, ?_⟩
  · rintro s rest' rfl v
    exact h.not_isSentence_of_reject hfree hruns hinput hreject rfl
  · rintro rfl
    have hnot := h.not_isSentence_of_reject (v := []) hfree hruns hinput hreject rfl
    rwa [List.append_nil] at hnot

/-- A trace that does not accept ends in a rejection. -/
theorem refutes_of_not_accepted (h : Tabulated g a full m t) (hfree : t.hasConflict = false)
    {limit : Nat} {steps : List Step} (hrun : run g t limit (startOn w) = .ok (some steps))
    (haccepted : (Trace.ofSteps steps).accepted = false) :
    ∃ last, steps.getLast? = some last ∧ last.move = .reject ∧ last.configuration.Refutes g w := by
  obtain ⟨before, last, rfl, hruns, hmove, hafter⟩ := exists_last_of_run hrun
  rw [Trace.accepted_ofSteps, List.getLast?_concat] at haccepted
  have hreject : last.move = .reject := by
    rcases eq_accept_or_reject_of_after hafter with haccept | hreject
    · simp [haccept] at haccepted
    · exact hreject
  exact ⟨last, List.getLast?_concat .., hreject, h.refutes_of_reject hfree hruns (hreject ▸ hmove)⟩

end Tabulated

/-- On every row of a trace what was read begins a sentence. If the trace does not accept, its last
row rejects, and no sentence begins with what was read there and the symbol that comes next. -/
theorem simulate_rejects_at_first_error {text : String} {warnings : List Warning} {c : Compiled}
    (hc : compile false text = (warnings, .ok c)) (hfree : c.table.hasConflict = false)
    (hdefined : c.grammar.undefinedSymbols = .ok []) (hends : c.grammar.endless = .ok [])
    {w : List Symbol} (hw : ∀ s ∈ w, s ∈ c.grammar.terminals) {limit : Nat} {trace : Trace}
    (htrace : simulate c.grammar c.table limit (Text.unwords w) = .ok trace) :
    ∃ steps, run c.grammar c.table limit (startOn w) = .ok (some steps) ∧
      trace = Trace.ofSteps steps ∧
      (∀ step ∈ steps, step.configuration.Viable c.grammar w) ∧
      (trace.accepted = false → ∃ last, steps.getLast? = some last ∧ last.move = .reject ∧
        last.configuration.Refutes c.grammar w) := by
  obtain ⟨a, htable⟩ := compile_ok hc
  have hyields : ∀ xs, (∀ s ∈ xs, c.grammar.Occurs s) → ∃ ns y, c.grammar.Yields xs ns y :=
    fun _ => Grammar.exists_yields htable.consistent hdefined hends
  obtain ⟨steps, rfl, hrun⟩ := htable.exists_steps hw htrace
  refine ⟨steps, hrun, rfl, fun step hstep => ?_, htable.refutes_of_not_accepted hfree hrun⟩
  obtain ⟨n, hn⟩ := List.getElem?_of_mem hstep
  exact htable.viable_of_runs hfree hyields (runs_of_run hrun hn).1

/-- A bracket that does not match, after a reduction for which it is as good as the right one. -/
theorem simulate_rejects_at_first_error_brackets :
    ∃ warnings c, compile false "S -> ( A ) | [ A ] A -> a A | ε" = (warnings, .ok c) ∧
      c.table.hasConflict = false ∧ c.grammar.undefinedSymbols = .ok [] ∧
      c.grammar.endless = .ok [] ∧ (∀ s ∈ ["(", "a", "]"], s ∈ c.grammar.terminals) ∧
      ∃ trace, simulate c.grammar c.table 8 (Text.unwords ["(", "a", "]"]) = .ok trace ∧
        trace.accepted = false ∧ trace.rows.length = 5 ∧
        ∃ steps, run c.grammar c.table 8 (startOn ["(", "a", "]"]) = .ok (some steps) ∧
          trace = Trace.ofSteps steps ∧
          (∀ step ∈ steps, step.configuration.Viable c.grammar ["(", "a", "]"]) ∧
          (trace.accepted = false → ∃ last, steps.getLast? = some last ∧ last.move = .reject ∧
            last.configuration.Refutes c.grammar ["(", "a", "]"]) := by
  have hcompiled : (compile false "S -> ( A ) | [ A ] A -> a A | ε").2.toOption.map
      (fun c => (c.table.hasConflict, decide (c.grammar.undefinedSymbols = .ok []),
        decide (c.grammar.endless = .ok []), c.grammar.terminals.keys,
        decide ((fun trace => (trace.accepted, trace.rows.length)) <$>
          simulate c.grammar c.table 8 (Text.unwords ["(", "a", "]"]) = .ok (false, 5)))) =
      some (false, true, true, ["(", ")", "[", "]", "a"], true) := by
    decide +kernel
  obtain ⟨warnings, c, hc, hview⟩ := exists_of_compile _ hcompiled
  obtain ⟨hfree, hview⟩ := Prod.mk.inj hview
  obtain ⟨hdefined, hview⟩ := Prod.mk.inj hview
  obtain ⟨hends, hview⟩ := Prod.mk.inj hview
  obtain ⟨hkeys, hsimulated⟩ := Prod.mk.inj hview
  have hdefined := of_decide_eq_true hdefined
  have hends := of_decide_eq_true hends
  have hw : ∀ s ∈ ["(", "a", "]"], s ∈ c.grammar.terminals := by
    intro s hs
    rw [Assoc.mem_def, hkeys]
    revert s
    decide
  obtain ⟨trace, htrace, hshown⟩ := map_eq_ok_iff.mp (of_decide_eq_true hsimulated)
  obtain ⟨haccepted, hlength⟩ := Prod.mk.inj hshown
  exact ⟨warnings, c, hc, hfree, hdefined, hends, hw, trace, htrace, haccepted, hlength,
    simulate_rejects_at_first_error hc hfree hdefined hends hw htrace⟩

end ShiftReduce
