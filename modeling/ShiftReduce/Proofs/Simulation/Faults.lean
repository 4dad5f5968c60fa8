/-
What can go wrong in a run.

A simulation is refused for a conflict or for a token that is no terminal. Otherwise it runs, and
from a stack that is a path of the automaton one thing only can be missing: the state to go to after
a reduction, and this only if state 0 holds every production.

* `fault_cases_of_simulate` — the faults of a simulation, by where they come from;
* `Tabulated.noGoto_of_faultsBy` — the one fault of a step;
* `Tabulated.fault_of_simulate` — all faults of a simulation;
* `Tabulated.refuses_iff` — a simulation is refused for these two reasons only.
-/
import ShiftReduce.Proofs.Simulation.Correctness

namespace ShiftReduce

variable {g : Grammar} {a : Augmented} {full : Bool} {m : Automaton} {t : Table} {limit : Nat}
  {text : String} {fault : Fault}

/-- A simulation is refused, or given up, or its run has a fault. -/
theorem fault_cases_of_simulate (h : simulate g t limit text = .error fault) :
    (t.hasConflict = true ∧ fault = .conflicted) ∨
    (∃ token ∈ Text.wordsOf text, token ∉ g.terminals ∧ fault = .unknownToken token) ∨
    t.hasConflict = false ∧ (fault = .unfinished limit ∨
      run g t limit (startOn (Text.wordsOf text)) = .error fault) := by
  rw [simulate, runOn] at h
  cases hconflict : t.hasConflict with
  | true =>
    rw [hconflict, if_pos rfl] at h
    exact .inl ⟨rfl, (Except.error.inj h).symm⟩
  | false =>
    rw [hconflict, if_neg Bool.false_ne_true] at h
    cases hunknown : unknownToken? g (Text.wordsOf text) with
    | some token =>
      rw [hunknown] at h
      have hmem := List.mem_of_find?_eq_some hunknown
      have hnone : token ∉ g.terminals := by simpa using List.find?_some hunknown
      exact .inr (.inl ⟨token, hmem, hnone, (Except.error.inj h).symm⟩)
    | none =>
      rw [hunknown] at h
      refine .inr (.inr ⟨rfl, ?_⟩)
      cases hrun : run g t limit (startOn (Text.wordsOf text)) with
      | error fault' =>
        rw [hrun] at h
        exact .inr (congrArg Except.error (Except.error.inj h))
      | ok outcome =>
        rw [hrun] at h
        cases outcome with
        | none => exact .inl (Except.error.inj h).symm
        | some steps => cases h

namespace Tabulated

/-- In a step nothing can be missing but the state behind a name, and nothing at all if state 0 is
closed from the start item only. -/
theorem noGoto_of_faultsBy (h : Tabulated g a full m t) (hfree : t.hasConflict = false)
    {stack : List (Symbol × Nat)} (hstack : m.OnPath stack) {s : Symbol} {rest : List Symbol}
    (hfault : FaultsBy g t ⟨stack, s :: rest⟩ fault) :
    full = true ∧ ∃ n name rule, fault = .noGoto n name rule := by
  cases full with
  | false =>
    obtain ⟨move, next, hmove, hafter⟩ := h.exists_after hfree hstack s rest
    rcases hfault with hfault | ⟨move', hmove', hfault⟩
    · cases hmove.symm.trans hfault
    · obtain rfl := Except.ok.inj (hmove.symm.trans hmove')
      cases hafter.symm.trans hfault
  | true =>
    refine ⟨rfl, ?_⟩
    rcases h.move_cases hstack s rest with
      ⟨k, hshift, _⟩ | ⟨n, i, hreduce, hn, hi, hreduces⟩ | ⟨haccept, _⟩ | hreject
    · rcases hfault with hfault | ⟨move, hmove, hfault⟩
      · cases hshift.symm.trans hfault
      · obtain rfl := Except.ok.inj (hshift.symm.trans hmove)
        cases hfault
    · rcases hfault with hfault | ⟨move, hmove, hfault⟩
      · cases hreduce.symm.trans hfault
      · obtain rfl := Except.ok.inj (hreduce.symm.trans hmove)
        -- The right side is on the stack, so that only the cell below it can be without a goto.
        obtain ⟨v, hv, _, hbelow, _⟩ := hstack.exposed hi hreduces.isComplete
        rw [Configuration.after, h.reduce_eq (length_le_of_wordOf_eq hv) hbelow] at hfault
        split at hfault
        · cases hfault
        · exact ⟨_, _, _, (Except.error.inj hfault).symm⟩
    · rcases hfault with hfault | ⟨move, hmove, hfault⟩
      · cases haccept.symm.trans hfault
      · obtain rfl := Except.ok.inj (haccept.symm.trans hmove)
        cases hfault
    · rcases hfault with hfault | ⟨move, hmove, hfault⟩
      · cases hreject.symm.trans hfault
      · obtain rfl := Except.ok.inj (hreject.symm.trans hmove)
        cases hfault

/-- A simulation is refused for a conflict or for a token, is given up, or misses a state behind a
name. -/
theorem fault_of_simulate (h : Tabulated g a full m t)
    (hfault : simulate g t limit text = .error fault) :
    (t.hasConflict = true ∧ fault = .conflicted) ∨
    (∃ token ∈ Text.wordsOf text, token ∉ g.terminals ∧ fault = .unknownToken token) ∨
    fault = .unfinished limit ∨
    full = true ∧ ∃ n name rule, fault = .noGoto n name rule := by
  rcases fault_cases_of_simulate hfault with hrefused | hrefused | ⟨hfree, hgivenUp | hrun⟩
  · exact .inl hrefused
  · exact .inr (.inl hrefused)
  · exact .inr (.inr (.inl hgivenUp))
  · obtain ⟨moves, c, hruns, hfaults⟩ := exists_faultsBy_of_run hrun
    obtain ⟨hstack, _, rest, _, hinput, _⟩ := h.parsed_of_runs (parsed_startOn g m _) hruns
    obtain ⟨s, rest', hnext⟩ := List.exists_cons_of_ne_nil
      (List.append_ne_nil_of_right_ne_nil rest (List.cons_ne_nil Symbol.endMark []))
    obtain ⟨stack, input⟩ := c
    obtain rfl := hinput.trans hnext
    exact .inr (.inr (.inr (h.noGoto_of_faultsBy hfree hstack hfaults)))

/-- A simulation is refused for a conflict or for a token that is no terminal, and for nothing
else. -/
theorem refuses_iff (h : Tabulated g a full m t) :
    (∃ fault, simulate g t limit text = .error fault ∧ fault.kind.isRefusal = true) ↔
      t.hasConflict = true ∨ ∃ token ∈ Text.wordsOf text, token ∉ g.terminals := by
  constructor
  · rintro ⟨fault, hfault, hrefusal⟩
    rcases h.fault_of_simulate hfault with
      ⟨hconflict, _⟩ | ⟨token, hmem, hnone, _⟩ | rfl | ⟨_, _, _, _, rfl⟩
    · exact .inl hconflict
    · exact .inr ⟨token, hmem, hnone⟩
    · cases hrefusal
    · cases hrefusal
  · intro hcases
    cases hconflict : t.hasConflict with
    | true =>
      refine ⟨.conflicted, ?_, rfl⟩
      rw [simulate, runOn, if_pos hconflict]
      rfl
    | false =>
      rw [hconflict] at hcases
      obtain ⟨token, hmem, hnone⟩ := hcases.resolve_left Bool.false_ne_true
      have hsome : (unknownToken? g (Text.wordsOf text)).isSome :=
        List.find?_isSome.mpr ⟨token, hmem, decide_eq_true hnone⟩
      obtain ⟨first, hfirst⟩ := Option.isSome_iff_exists.mp hsome
      refine ⟨.unknownToken first, ?_, rfl⟩
      rw [simulate, runOn, hconflict, if_neg Bool.false_ne_true, hfirst]
      rfl

end Tabulated

end ShiftReduce
