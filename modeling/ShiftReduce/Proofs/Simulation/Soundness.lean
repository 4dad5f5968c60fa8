/-
What the machine has read, the symbols of its stack yield.

The symbols of the stack yield what was taken from the input, by the productions of the reductions
in the order in which they were made. So a text that is accepted is a sentence.

* `Parsed` — what stack and input say after some moves;
* `Tabulated.parsed_of_takes`, `Tabulated.parsed_of_runs` — each move keeps it, and so does a run;
* `Tabulated.yields_of_accept` — what is accepted is yielded by the start symbol.
-/
import ShiftReduce.Proofs.Grammar.Yield
import ShiftReduce.Proofs.Simulation.Stacks

namespace ShiftReduce

/-- What stack and input are after some moves on a text: the symbols of the stack yield what was
read of it, with a reduction or a symbol read for each move. -/
structure Parsed (g : Grammar) (m : Automaton) (w : List Symbol) (moves : List Move)
    (c : Configuration) : Prop where
  onPath : m.OnPath c.stack
  read : ∃ u rest, w = u ++ rest ∧ c.input = rest ++ [Symbol.endMark] ∧
    g.Yields (wordOf c.stack) (reductionsOf moves) u ∧
    moves.length = (reductionsOf moves).length + u.length

theorem parsed_startOn (g : Grammar) (m : Automaton) (w : List Symbol) :
    Parsed g m w [] (startOn w) := ⟨.nil, [], w, rfl, rfl, .nil, rfl⟩

namespace Tabulated

variable {g : Grammar} {a : Augmented} {full : Bool} {m : Automaton} {t : Table}
  {w : List Symbol} {moves moves' : List Move} {c c' : Configuration}

theorem parsed_of_takes (h : Tabulated g a full m t) (hc : Parsed g m w moves c) {move : Move}
    (ht : Takes g t c move c') : Parsed g m w (moves ++ [move]) c' := by
  obtain ⟨hstack, u, rest, rfl, hinput, hy, hlength⟩ := hc
  obtain ⟨hstack', hcases⟩ := h.takes_cases hstack ht
  refine ⟨hstack', ?_⟩
  rcases hcases with ⟨s, k, rfl, hs, hshift, hword⟩ | ⟨n, p, v, rfl, hn, hsame, hword, hword'⟩
  · -- The symbol that is shifted is not the mark behind the text.
    rw [hinput] at hshift
    cases rest with
    | nil =>
      obtain rfl : Symbol.endMark = s := (List.cons.inj hshift).1
      exact absurd hs h.endMark_not_mem_terminals
    | cons s' rest =>
      obtain ⟨rfl, hrest⟩ := List.cons.inj hshift
      have hreductions : reductionsOf (moves ++ [.shift k]) = reductionsOf moves := by
        rw [reductionsOf_append]
        exact List.append_nil _
      refine ⟨u ++ [s'], rest, ?_, hrest.symm, ?_, ?_⟩
      · rw [List.append_assoc, List.singleton_append]
      · have hleaf := hy.append (.leaf hs .nil)
        rw [hword, hreductions]
        rwa [List.append_nil] at hleaf
      · rw [hreductions, List.length_append, List.length_append, hlength, List.length_singleton,
          List.length_singleton]
        omega
  · have hreductions : reductionsOf (moves ++ [.reduce n p.toRule]) = reductionsOf moves ++ [n] :=
      reductionsOf_append moves [.reduce n p.toRule]
    refine ⟨u, rest, rfl, hsame.trans hinput, ?_, ?_⟩
    · rw [hword] at hy
      obtain ⟨ns₁, ns₂, u₁, u₂, hns, rfl, hv, hrhs⟩ := hy.split
      have hnode := hv.append (.node hn hrhs .nil)
      rw [hword', hreductions, hns, List.append_assoc]
      rwa [List.append_nil] at hnode
    · rw [hreductions, List.length_append, List.length_append, hlength, List.length_singleton,
        List.length_singleton]
      omega

theorem parsed_of_runs (h : Tabulated g a full m t) (hc : Parsed g m w moves c)
    (hruns : Runs g t moves' c c') : Parsed g m w (moves ++ moves') c' := by
  induction hruns generalizing moves with
  | refl =>
    rw [List.append_nil]
    exact hc
  | @step move moves' _ _ _ ht _ ih =>
    have hnext := ih (h.parsed_of_takes hc ht)
    rwa [List.append_assoc] at hnext

theorem yields_of_accept (h : Tabulated g a full m t) (hw : ∀ s ∈ w, s ∈ g.terminals)
    (hruns : Runs g t moves (startOn w) c) (haccept : c.move g t = .ok .accept) :
    g.Yields [a.goal] (reductionsOf moves) w := by
  obtain ⟨hstack, u, rest, rfl, hinput, hy, _⟩ := h.parsed_of_runs (parsed_startOn g m w) hruns
  obtain ⟨hword, hhead⟩ := h.of_move_accept hstack haccept
  rw [hinput] at hhead
  cases rest with
  | nil =>
    rw [List.append_nil, ← hword]
    exact hy
  | cons s rest =>
    obtain rfl : s = Symbol.endMark := Option.some.inj hhead
    exact absurd (hw _ (List.mem_append_right u (List.mem_cons_self ..)))
      h.endMark_not_mem_terminals

end Tabulated

end ShiftReduce
