/-
A trace is a rightmost derivation read backwards.

On every row the symbols of the stack and the input that is left are one row of symbols, and the
text is derived from it by the productions of the reductions above, the last one first.

* `Configuration.Unwinds` — a configuration goes back to a text by the reductions before it;
* `Parsed.unwinds` — what is kept along a run says that it does;
* `Tabulated.eq_of_move_accept` — in acceptance only the start symbol, its state and the mark for
  the end of the input are left;
* `simulate_unwinds` — every configuration that is reached and every row of a trace goes back to the
  text, and in a trace that accepts the start symbol does.
-/
import ShiftReduce.Proofs.Simulation.Correctness

namespace ShiftReduce

/-- The symbols of the stack and the input that is left derive the text, from right to left, by the
productions of the reductions among the moves, the last one first. -/
def Configuration.Unwinds (g : Grammar) (moves : List Move) (w : List Symbol) (c : Configuration) :
    Prop :=
  ∃ rest, c.input = rest ++ [Symbol.endMark] ∧
    g.Rightmost (reductionsOf moves).reverse (wordOf c.stack ++ rest) w

theorem Parsed.unwinds {g : Grammar} {m : Automaton} {w : List Symbol} {moves : List Move}
    {c : Configuration} (hc : Parsed g m w moves c) (hw : ∀ s ∈ w, s ∈ g.terminals) :
    c.Unwinds g moves w := by
  obtain ⟨u, rest, rfl, hinput, hyields, _⟩ := hc.read
  exact ⟨rest, hinput, hyields.rightmost fun s hs => hw s (List.mem_append_right u hs)⟩

namespace Tabulated

variable {g : Grammar} {a : Augmented} {full : Bool} {m : Automaton} {t : Table} {w : List Symbol}
  {moves : List Move} {c : Configuration}

/-- A configuration that accepts has the start symbol and its state on the stack, and nothing but
the mark for its end in the input. -/
theorem eq_of_move_accept (h : Tabulated g a full m t) (hw : ∀ s ∈ w, s ∈ g.terminals)
    (hc : Parsed g m w moves c) (haccept : c.move g t = .ok .accept) :
    ∃ f, m.finalState = some f ∧ c = ⟨[(a.goal, f)], [Symbol.endMark]⟩ := by
  obtain ⟨hword, hhead⟩ := h.of_move_accept hc.onPath haccept
  obtain ⟨f, hfinal, hgoal, _⟩ := h.built.finalState_eq h.consistent
  obtain ⟨k, hgoto, hstack⟩ := hc.onPath.eq_singleton hword
  obtain rfl := Option.some.inj (hgoal.symm.trans hgoto)
  obtain ⟨u, rest, rfl, hinput, _⟩ := hc.read
  have hrest : rest = [] := by
    -- A terminal that is left would be the next symbol, and the next symbol is the mark.
    cases rest with
    | nil => rfl
    | cons s rest =>
      rw [hinput] at hhead
      obtain rfl : s = Symbol.endMark := Option.some.inj hhead
      exact absurd (hw _ (by simp)) h.endMark_not_mem_terminals
  refine ⟨f, hfinal, ?_⟩
  obtain ⟨stack, input⟩ := c
  show (⟨stack, input⟩ : Configuration) = _
  rw [show stack = _ from hstack, show input = _ from hinput, hrest]
  rfl

/-- If the run accepts, all its reductions together are a rightmost derivation of the text. -/
theorem unwinds_of_accepted (h : Tabulated g a full m t) (hw : ∀ s ∈ w, s ∈ g.terminals)
    {limit : Nat} {steps : List Step} (hrun : run g t limit (startOn w) = .ok (some steps))
    (haccepted : (Trace.ofSteps steps).accepted = true) :
    ∃ f, m.finalState = some f ∧
      g.Rightmost (reductionsOf (steps.map Step.move)).reverse [a.goal] w ∧
      steps.getLast? = some ⟨⟨[(a.goal, f)], [Symbol.endMark]⟩, .accept⟩ := by
  obtain ⟨before, last, rfl, hruns, hmove, _⟩ := exists_last_of_run hrun
  rw [Trace.accepted_ofSteps, List.getLast?_concat] at haccepted
  have haccept : last.move = .accept := of_decide_eq_true haccepted
  rw [haccept] at hmove
  have hparsed := h.parsed_of_runs (parsed_startOn g m w) hruns
  obtain ⟨f, hfinal, hconfiguration⟩ := h.eq_of_move_accept hw hparsed hmove
  refine ⟨f, hfinal, ?_, ?_⟩
  · -- The last row is the start symbol alone, and acceptance is no reduction.
    obtain ⟨rest, hrest, hderives⟩ := hparsed.unwinds hw
    rw [hconfiguration] at hrest hderives
    obtain rfl : rest = [] := by simpa using hrest
    have hnone : reductionsOf ((before ++ [last]).map Step.move) =
        reductionsOf (before.map Step.move) := by
      rw [List.map_append, reductionsOf_append, List.map_singleton, haccept]
      exact List.append_nil _
    rw [hnone]
    exact hderives
  · rw [List.getLast?_concat, ← haccept, ← hconfiguration]

end Tabulated

/-- Every configuration that is reached on a text of terminals goes back to the text by the
reductions before it, and so does every row of a trace. In a trace that accepts, all reductions
together, the last one first, are a rightmost derivation of the text from the start symbol, and the
last row has only the start symbol with the final state on it and the mark for the end of the
input. -/
theorem simulate_unwinds {full : Bool} {text : String} {warnings : List Warning} {c : Compiled}
    (hc : compile full text = (warnings, .ok c)) {w : List Symbol}
    (hw : ∀ s ∈ w, s ∈ c.grammar.terminals) :
    (∀ moves reached, Runs c.grammar c.table moves (startOn w) reached →
      reached.Unwinds c.grammar moves w) ∧
    ∀ limit trace, simulate c.grammar c.table limit (Text.unwords w) = .ok trace →
      ∃ steps, run c.grammar c.table limit (startOn w) = .ok (some steps) ∧
        trace = Trace.ofSteps steps ∧
        (∀ (n : Nat) (step : Step), steps[n]? = some step →
          step.configuration.Unwinds c.grammar ((steps.take n).map Step.move) w) ∧
        (trace.accepted = true → ∃ s f, c.grammar.start = some s ∧
          c.automaton.finalState = some f ∧
          c.grammar.Rightmost (reductionsOf (steps.map Step.move)).reverse [s] w ∧
          steps.getLast? = some ⟨⟨[(s, f)], [Symbol.endMark]⟩, .accept⟩) := by
  obtain ⟨a, htable⟩ := compile_ok hc
  have hunwinds : ∀ moves reached, Runs c.grammar c.table moves (startOn w) reached →
      reached.Unwinds c.grammar moves w := fun moves reached hruns =>
    (htable.parsed_of_runs (parsed_startOn c.grammar c.automaton w) hruns).unwinds hw
  refine ⟨hunwinds, fun limit trace htrace => ?_⟩
  obtain ⟨steps, rfl, hrun⟩ := htable.exists_steps hw htrace
  refine ⟨steps, hrun, rfl, fun n step hn => hunwinds _ _ (runs_of_run hrun hn).1, ?_⟩
  intro haccepted
  obtain ⟨f, hfinal, hderives, hlast⟩ := htable.unwinds_of_accepted hw hrun haccepted
  exact ⟨a.goal, f, (Augmented.ofGrammar_eq_ok_iff.mp htable.augmented).1, hfinal, hderives, hlast⟩

/-- Names that are reduced from nothing, with every production in state 0: the machine accepts, and
its reductions 2, 1 and 0 are the derivation of `a b` from `S` by the productions 0, 1 and 2. -/
theorem simulate_unwinds_of_full :
    ∃ warnings c, compile true "S -> A b A -> a A | ε" = (warnings, .ok c) ∧
      (∀ s ∈ ["a", "b"], s ∈ c.grammar.terminals) ∧
      (∃ trace, simulate c.grammar c.table 20 (Text.unwords ["a", "b"]) = .ok trace ∧
        trace.accepted = true) ∧
      c.grammar.Rightmost [0, 1, 2] ["S"] ["a", "b"] ∧
      (∀ moves reached, Runs c.grammar c.table moves (startOn ["a", "b"]) reached →
        reached.Unwinds c.grammar moves ["a", "b"]) ∧
      ∀ limit trace, simulate c.grammar c.table limit (Text.unwords ["a", "b"]) = .ok trace →
        ∃ steps, run c.grammar c.table limit (startOn ["a", "b"]) = .ok (some steps) ∧
          trace = Trace.ofSteps steps ∧
          (∀ (n : Nat) (step : Step), steps[n]? = some step →
            step.configuration.Unwinds c.grammar ((steps.take n).map Step.move) ["a", "b"]) ∧
          (trace.accepted = true → ∃ s f, c.grammar.start = some s ∧
            c.automaton.finalState = some f ∧
            c.grammar.Rightmost (reductionsOf (steps.map Step.move)).reverse [s] ["a", "b"] ∧
            steps.getLast? = some ⟨⟨[(s, f)], [Symbol.endMark]⟩, .accept⟩) := by
  have hcompiled : (compile true "S -> A b A -> a A | ε").2.toOption.map (fun c =>
      (c.grammar.terminals.keys, c.grammar.start,
        (simulate c.grammar c.table 20 (Text.unwords ["a", "b"])).toOption.map Trace.accepted,
        (run c.grammar c.table 20 (startOn ["a", "b"])).toOption.join.map fun steps =>
          reductionsOf (steps.map Step.move))) =
      some (["b", "a"], some "S", some true, some [2, 1, 0]) := by
    decide +kernel
  obtain ⟨warnings, c, hc, hview⟩ := exists_of_compile _ hcompiled
  obtain ⟨hkeys, hview⟩ := Prod.mk.inj hview
  obtain ⟨hstart, hview⟩ := Prod.mk.inj hview
  obtain ⟨haccepted, hreductions⟩ := Prod.mk.inj hview
  have hw : ∀ s ∈ ["a", "b"], s ∈ c.grammar.terminals := by
    intro s hs
    rw [Assoc.mem_def, hkeys]
    revert s
    decide
  obtain ⟨hreached, htraces⟩ := simulate_unwinds hc hw
  obtain ⟨trace, htrace, htrue⟩ := exists_of_toOption haccepted
  refine ⟨warnings, c, hc, hw, ⟨trace, htrace, htrue⟩, ?_, hreached, htraces⟩
  -- The derivation is that of the trace, whose reductions are known.
  obtain ⟨steps, hrun, _, _, hends⟩ := htraces 20 trace htrace
  obtain ⟨s, _, hs, _, hderives, _⟩ := hends htrue
  obtain rfl : "S" = s := Option.some.inj (hstart.symm.trans hs)
  rw [hrun] at hreductions
  have hreductions : reductionsOf (steps.map Step.move) = [2, 1, 0] := Option.some.inj hreductions
  rw [hreductions] at hderives
  exact hderives

end ShiftReduce
