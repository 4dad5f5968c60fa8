/-
The machine accepts exactly the sentences.

* `simulate_eq_ok` — there is a trace only of a run on terminals, without conflicts;
* `Tabulated.runOn_eq`, `Tabulated.simulate_unwords` — terminals in a row are read as they are;
* `Tabulated.exists_steps` — a trace shows the steps of the run on them;
* `Tabulated.accepts_of_isSentence` — on a sentence the run comes to acceptance;
* `simulate_accepts_iff_isSentence` — a text of terminals is accepted, with steps enough, if and
  only if it is derived from the start symbol.
-/
import ShiftReduce.Proofs.Simulation.Completeness
import ShiftReduce.Proofs.Simulation.Soundness

namespace ShiftReduce

variable {g : Grammar} {a : Augmented} {full : Bool} {m : Automaton} {t : Table} {w : List Symbol}

/-- A trace is that of a run on terminals over a table without conflicts. -/
theorem simulate_eq_ok {limit : Nat} {text : String} {trace : Trace}
    (h : simulate g t limit text = .ok trace) :
    t.hasConflict = false ∧ (∀ s ∈ Text.wordsOf text, s ∈ g.terminals) ∧ ∃ steps,
      run g t limit (startOn (Text.wordsOf text)) = .ok (some steps) ∧
      trace = Trace.ofSteps steps := by
  obtain ⟨outcome, hrun, htrace⟩ := bind_eq_ok_iff.mp h
  unfold runOn at hrun
  split at hrun
  · cases hrun
  · next hfree =>
    split at hrun
    · cases hrun
    · next hknown =>
      cases outcome with
      | none => cases htrace
      | some steps =>
        refine ⟨Bool.not_eq_true _ ▸ hfree, fun s hs => ?_, steps, hrun, ?_⟩
        · simpa using List.find?_eq_none.mp hknown s hs
        · exact (Except.ok.inj htrace).symm

namespace Tabulated

theorem runOn_eq (hfree : t.hasConflict = false) (hw : ∀ s ∈ w, s ∈ g.terminals) (limit : Nat) :
    runOn g t limit w = run g t limit (startOn w) := by
  have hknown : unknownToken? g w = none := by
    rw [unknownToken?, List.find?_eq_none]
    intro s hs
    simpa using hw s hs
  rw [runOn, hfree, if_neg Bool.false_ne_true, hknown]

/-- Terminals are words, so that a row of them is cut where it was put together. -/
theorem wordsOf_unwords (h : Tabulated g a full m t) (hw : ∀ s ∈ w, s ∈ g.terminals) :
    Text.wordsOf (Text.unwords w) = w :=
  Text.wordsOf_unwords fun s hs => (h.readable.isReadable h.consistent (hw s hs)).isWord

theorem simulate_unwords (h : Tabulated g a full m t) (hfree : t.hasConflict = false)
    (hw : ∀ s ∈ w, s ∈ g.terminals) (limit : Nat) :
    simulate g t limit (Text.unwords w) =
      match run g t limit (startOn w) with
      | .ok (some steps) => .ok (Trace.ofSteps steps)
      | .ok none => .error (.unfinished limit)
      | .error fault => .error fault := by
  rw [simulate, h.wordsOf_unwords hw, runOn_eq hfree hw]
  cases run g t limit (startOn w) with
  | error fault => rfl
  | ok outcome =>
    cases outcome with
    | none => rfl
    | some steps => rfl

theorem exists_steps (h : Tabulated g a full m t) (hw : ∀ s ∈ w, s ∈ g.terminals) {limit : Nat}
    {trace : Trace} (htrace : simulate g t limit (Text.unwords w) = .ok trace) :
    ∃ steps, trace = Trace.ofSteps steps ∧ run g t limit (startOn w) = .ok (some steps) := by
  obtain ⟨_, _, steps, hrun, hsteps⟩ := simulate_eq_ok htrace
  rw [h.wordsOf_unwords hw] at hrun
  exact ⟨steps, hsteps, hrun⟩

theorem accepts_of_isSentence (h : Tabulated g a full m t) (hfree : t.hasConflict = false)
    (hw : g.IsSentence w) : ∃ c moves, Runs g t moves (startOn w) c ∧ c.move g t = .ok .accept := by
  obtain ⟨s, ns, hs, hy⟩ := Grammar.isSentence_iff.mp hw
  obtain rfl := Option.some.inj (hs.symm.trans (Augmented.ofGrammar_eq_ok_iff.mp h.augmented).1)
  obtain ⟨c, moves, hruns, _, _, _, _, _, haccept⟩ := h.accepts_of_yields hfree hy
  exact ⟨c, moves, hruns, haccept⟩

theorem simulate_of_isSentence (h : Tabulated g a full m t) (hfree : t.hasConflict = false)
    (hw : g.IsSentence w) : ∃ enough trace, trace.accepted = true ∧
      ∀ limit, enough ≤ limit → simulate g t limit (Text.unwords w) = .ok trace := by
  obtain ⟨c, moves, hruns, haccept⟩ := h.accepts_of_isSentence hfree hw
  obtain ⟨steps, hlast, hrun⟩ := run_of_runs hruns haccept rfl
  refine ⟨moves.length + 1, Trace.ofSteps steps, ?_, fun limit hlimit => ?_⟩
  · rw [Trace.accepted_ofSteps, hlast]
    rfl
  · rw [h.simulate_unwords hfree hw.1, hrun limit hlimit]

theorem isSentence_of_simulate (h : Tabulated g a full m t) (hfree : t.hasConflict = false)
    (hw : ∀ s ∈ w, s ∈ g.terminals) {limit : Nat} {trace : Trace}
    (htrace : simulate g t limit (Text.unwords w) = .ok trace) (haccepted : trace.accepted = true) :
    g.IsSentence w := by
  rw [h.simulate_unwords hfree hw] at htrace
  -- A trace is shown only after a last move, and the accepting ones end with acceptance.
  obtain ⟨moves, c, hruns, hcases⟩ := run_cases g t limit (startOn w)
  rcases hcases with ⟨hnone, _⟩ | ⟨move, steps, hsome, hmove, _, hlast⟩ | ⟨fault, herror, _⟩
  · rw [hnone] at htrace
    cases htrace
  · rw [hsome] at htrace
    obtain rfl := Except.ok.inj htrace
    rw [Trace.accepted_ofSteps, hlast] at haccepted
    obtain rfl : move = .accept := of_decide_eq_true haccepted
    exact Grammar.isSentence_iff.mpr ⟨a.goal, _, (Augmented.ofGrammar_eq_ok_iff.mp h.augmented).1,
      h.yields_of_accept hw hruns hmove⟩
  · rw [herror] at htrace
    cases htrace

end Tabulated

/-- A text of terminals is accepted, with steps enough, if and only if it is derived from the start
symbol; no run accepts another text. -/
theorem simulate_accepts_iff_isSentence {text : String} {warnings : List Warning} {c : Compiled}
    (hc : compile false text = (warnings, .ok c)) (hfree : c.table.hasConflict = false)
    {w : List Symbol} (hw : ∀ s ∈ w, s ∈ c.grammar.terminals) :
    (c.grammar.IsSentence w ↔ ∃ enough trace, trace.accepted = true ∧ ∀ limit, enough ≤ limit →
      simulate c.grammar c.table limit (Text.unwords w) = .ok trace) ∧
    (¬c.grammar.IsSentence w → ∀ limit trace,
      simulate c.grammar c.table limit (Text.unwords w) = .ok trace → trace.accepted = false) := by
  obtain ⟨a, htable⟩ := compile_ok hc
  refine ⟨⟨htable.simulate_of_isSentence hfree, ?_⟩, ?_⟩
  · rintro ⟨enough, trace, haccepted, hall⟩
    exact htable.isSentence_of_simulate hfree hw (hall enough (Nat.le_refl enough)) haccepted
  · intro hno limit trace htrace
    by_contra haccepted
    rw [Bool.not_eq_false] at haccepted
    exact hno (htable.isSentence_of_simulate hfree hw htrace haccepted)

/-- Sums with parentheses, where the start symbol is left recursive. -/
theorem simulate_accepts_iff_isSentence_sums :
    ∃ warnings c, compile false "E -> E + T | T T -> ( E ) | a" = (warnings, .ok c) ∧
      c.table.hasConflict = false ∧
      (∀ s ∈ ["(", "a", "+", "a", ")"], s ∈ c.grammar.terminals) ∧
      (c.grammar.IsSentence ["(", "a", "+", "a", ")"] ↔ ∃ enough trace, trace.accepted = true ∧
        ∀ limit, enough ≤ limit →
          simulate c.grammar c.table limit (Text.unwords ["(", "a", "+", "a", ")"]) = .ok trace) ∧
      (¬c.grammar.IsSentence ["(", "a", "+", "a", ")"] → ∀ limit trace,
        simulate c.grammar c.table limit (Text.unwords ["(", "a", "+", "a", ")"]) = .ok trace →
          trace.accepted = false) := by
  have hcompiled : (compile false "E -> E + T | T T -> ( E ) | a").2.toOption.map
      (fun c => (c.table.hasConflict, c.grammar.terminals.keys)) =
      some (false, ["+", "(", ")", "a"]) := by
    decide +kernel
  obtain ⟨warnings, c, hc, hview⟩ := exists_of_compile _ hcompiled
  obtain ⟨hfree, hkeys⟩ := Prod.mk.inj hview
  have hw : ∀ s ∈ ["(", "a", "+", "a", ")"], s ∈ c.grammar.terminals := by
    intro s hs
    rw [Assoc.mem_def, hkeys]
    revert s
    decide
  exact ⟨warnings, c, hc, hfree, hw, simulate_accepts_iff_isSentence hc hfree hw⟩

end ShiftReduce
