/-
Every run comes to an end.

After some moves on any text at all, what was read can be continued to a sentence on which the
machine makes as many moves until it has read the same: what the stack yields, it yields by the
reductions that were made, and the machine follows every derivation. How many moves these are is
bounded, as the machine accepts the sentence in the end, and among the sentences that agree up to
the next symbol one tells the bound for all.

* `Tabulated.exists_context` — a text behind an item with which it is part of a sentence;
* `Tabulated.exists_sentence_of_runs` — the sentence for the moves on a text;
* `Tabulated.exists_bound` — a bound on the moves on a text;
* `Trace.Ended` — the last row of a trace accepts or rejects;
* `simulate_terminates` — every text of terminals has its trace, which has come to its end.
-/
import Mathlib.Algebra.Order.BigOperators.Group.List
import Mathlib.Control.Monad.Basic
import ShiftReduce.Proofs.Grammar.Productive
import ShiftReduce.Proofs.Simulation.Correctness

namespace ShiftReduce

open ShiftReduce.Configuration (topState)

namespace Tabulated

variable {g : Grammar} {a : Augmented} {full : Bool} {m : Automaton} {t : Table} {w : List Symbol}

/-! ### Sentences around items -/

/-- Whether a text can stand behind an item: whatever the symbols before the dot and behind it
yield, together with the text it is a sentence, and on this the machine comes to the item. -/
def Context (g : Grammar) (a : Augmented) (m : Automaton) (t : Table) (before : List Symbol)
    (i : Item) (after : List Symbol) : Prop :=
  (∃ s rest, after ++ [Symbol.endMark] = s :: rest ∧ g.FollowsName a i.rule.name s) ∧
  ∀ ns u ms v, g.Yields before ns u → g.Yields (i.rule.rhs.drop i.dot) ms v →
    g.IsSentence (u ++ v ++ after) ∧
    ∃ stack moves, m.OnPath stack ∧ wordOf stack = before ∧
      Runs g t moves (startOn (u ++ v ++ after)) ⟨stack, v ++ after ++ [Symbol.endMark]⟩ ∧
      moves.length = ns.length + u.length

theorem context_start (h : Tabulated g a full m t) : Context g a m t [] a.startItem [] := by
  refine ⟨⟨Symbol.endMark, [], rfl, ?_⟩, fun ns u ms v hu hv => ?_⟩
  · rw [Grammar.FollowsName]
    exact if_pos rfl ▸ rfl
  · cases hu
    have hgoal := (Augmented.ofGrammar_eq_ok_iff.mp h.augmented).1
    refine ⟨Grammar.isSentence_iff.mpr ⟨a.goal, ms, hgoal, ?_⟩, [], [], .nil, rfl, ?_, rfl⟩
    · rw [List.append_nil]
      exact hv
    · exact .refl _

/-- Behind a production that is opened stands what the symbols behind its name yield. -/
theorem context_open (h : Tabulated g a full m t) {before after : List Symbol} {i j : Item}
    {n : Symbol} (hi : a.Valid i) (hn : n ∈ g.nonterminals) (hnext : i.next? = some n)
    (hj : j ∈ a.leadingItems) (hname : j.rule.name = n) {ks : List Nat} {y : List Symbol}
    (hy : g.Yields (i.moved.rule.rhs.drop i.moved.dot) ks y)
    (hcontext : Context g a m t before i after) : Context g a m t before j (y ++ after) := by
  obtain ⟨⟨s, rest, hafter, hs⟩, hall⟩ := hcontext
  have hjvalid := Augmented.Valid.of_mem_leadingItems hj
  have hdot := (Augmented.mem_leadingItems_iff.mp hj).2
  obtain ⟨k, p, _, hk, hrule⟩ := hjvalid.exists_production h.augmented
    (production_ne_zero h.consistent hjvalid (hname ▸ hn))
  have hpname : p.name = n := (congrArg Rule.name hrule).trans hname
  have hrest := Item.drop_of_next? hnext
  rw [← hpname] at hrest
  constructor
  · obtain ⟨rest', hrest'⟩ := exists_append_eq_headD y s rest
    -- Behind the production comes what its rest begins with, or what came before.
    refine ⟨y.headD s, rest', by rw [List.append_assoc, hafter, hrest'], ?_⟩
    have hp := List.mem_of_getElem? hk
    rw [← hrule]
    exact (h.followsName_iff hp).mpr (h.has_follow hi hp hrest (h.canFollow_headD hy hs))
  · intro ns u ms v hu hv
    rw [hdot, List.drop_zero, ← hrule] at hv
    have hnode := Grammar.Yields.node hk hv hy
    rw [← hrest] at hnode
    obtain ⟨hsentence, stack, moves, hstack, hword, hruns, hlength⟩ := hall ns u _ (v ++ y) hu hnode
    simp only [List.append_assoc] at hsentence hruns ⊢
    exact ⟨hsentence, stack, moves, hstack, hword, hruns, hlength⟩

/-- What stands behind an item stays behind it when a symbol is read. -/
theorem context_read (h : Tabulated g a full m t) (hfree : t.hasConflict = false)
    {before after : List Symbol} {i : Item} {x : Symbol} (hi : i ∈ (itemNfa g a full).eval before)
    (hnext : i.next? = some x) (hcontext : Context g a m t before i after) :
    Context g a m t (before ++ [x]) i.moved after := by
  obtain ⟨⟨s, rest, hafter, hs⟩, hall⟩ := hcontext
  refine ⟨⟨s, rest, hafter, hs⟩, fun ns u ms v hu hv => ?_⟩
  obtain ⟨ns₁, ns₂, u₁, u₂, rfl, rfl, hbefore, hx⟩ := hu.split
  have hrest := Item.drop_of_next? hnext
  have hboth := hx.append hv
  rw [List.singleton_append, ← hrest] at hboth
  obtain ⟨hsentence, stack, moves, hstack, hword, hruns, hlength⟩ :=
    hall ns₁ u₁ _ (u₂ ++ v) hbefore hboth
  -- From the item the machine follows the trees of the symbol.
  obtain ⟨rest', hrest'⟩ := exists_append_eq_headD v s rest
  obtain ⟨stack', moves', hstack', hword', hruns', _, hlength'⟩ :=
    h.follows hfree hx hstack (hword.symm ▸ hi) hrest (h.canFollow_headD hv hs) rest'
  have hinput : v ++ after ++ [Symbol.endMark] = v.headD s :: rest' := by
    rw [List.append_assoc, hafter, hrest']
  rw [← hinput] at hruns'
  simp only [List.append_assoc] at hsentence hruns hruns' ⊢
  refine ⟨hsentence, stack', moves ++ moves', hstack', ?_, hruns.trans hruns', ?_⟩
  · rw [hword', hword]
  · rw [List.length_append, List.length_append, List.length_append, hlength, hlength']
    omega

theorem exists_context (h : Tabulated g a false m t) (hfree : t.hasConflict = false)
    (hyields : ∀ xs, (∀ s ∈ xs, g.Occurs s) → ∃ ns y, g.Yields xs ns y) {before : List Symbol}
    {i : Item} (hi : i ∈ (itemNfa g a false).eval before) :
    ∃ after, Context g a m t before i after := by
  refine eval_induction (P := fun before i => ∃ after, Context g a m t before i after) ?_ ?_ ?_ hi
  · intro i hi
    obtain rfl : i = a.startItem := mem_start_iff.mp hi
    exact ⟨[], h.context_start⟩
  · rintro before i j n hi ⟨after, hcontext⟩ hn hnext hj hname
    have hvalid := valid_of_mem_eval hi
    obtain ⟨ks, y, hy⟩ := hyields (i.moved.rule.rhs.drop i.moved.dot) fun s hs =>
      (hvalid.moved hnext).occurs_of_mem_rhs h.consistent h.augmented (List.mem_of_mem_drop hs)
    exact ⟨y ++ after, h.context_open hvalid hn hnext hj hname hy hcontext⟩
  · rintro before i x hi ⟨after, hcontext⟩ hnext
    exact ⟨after, h.context_read hfree hi hnext hcontext⟩

/-! ### A bound on the moves -/

/-- After some moves on any text, what was read can be continued to a sentence on which the machine
makes as many moves until it has read the same. -/
theorem exists_sentence_of_runs (h : Tabulated g a false m t) (hfree : t.hasConflict = false)
    (hyields : ∀ xs, (∀ s ∈ xs, g.Occurs s) → ∃ ns y, g.Yields xs ns y) {moves : List Move}
    {c : Configuration} (hruns : Runs g t moves (startOn w) c) :
    ∃ u rest v stack moves', w = u ++ rest ∧ c.input = rest ++ [Symbol.endMark] ∧
      g.IsSentence (u ++ v) ∧
      Runs g t moves' (startOn (u ++ v)) ⟨stack, v ++ [Symbol.endMark]⟩ ∧
      moves'.length = moves.length := by
  obtain ⟨hstack, u, rest, hw, hinput, hu, hlength⟩ :=
    h.parsed_of_runs (parsed_startOn g m w) hruns
  obtain ⟨ts, hp, hts⟩ := hstack.exists_path
  obtain ⟨i, hi⟩ := hp.exists_mem_eval h.built.toCoherent
  rw [hts] at hi
  obtain ⟨after, _, hall⟩ := h.exists_context hfree hyields hi
  obtain ⟨ms, v, hv⟩ := hyields (i.rule.rhs.drop i.dot) fun s hs =>
    (valid_of_mem_eval hi).occurs_of_mem_rhs h.consistent h.augmented (List.mem_of_mem_drop hs)
  obtain ⟨hsentence, stack, moves', _, _, hruns', hlength'⟩ := hall _ u ms v hu hv
  rw [List.append_assoc] at hsentence hruns'
  exact ⟨u, rest, v ++ after, stack, moves', hw, hinput, hsentence, hruns',
    hlength'.trans hlength.symm⟩

/-- One sentence tells how many moves there are at most up to a place, for all sentences that agree
with it up to the next symbol. -/
theorem exists_bound_at (h : Tabulated g a full m t) (hfree : t.hasConflict = false)
    (u : List Symbol) (s : Symbol) : ∃ bound, ∀ v stack moves,
      (v ++ [Symbol.endMark]).head? = some s → g.IsSentence (u ++ v) →
      Runs g t moves (startOn (u ++ v)) ⟨stack, v ++ [Symbol.endMark]⟩ → moves.length ≤ bound := by
  by_cases hsome : ∃ v, (v ++ [Symbol.endMark]).head? = some s ∧ g.IsSentence (u ++ v)
  · obtain ⟨v₀, hhead₀, hsentence₀⟩ := hsome
    obtain ⟨c₀, moves₀, hruns₀, haccept⟩ := h.accepts_of_isSentence hfree hsentence₀
    -- Moves up to the place are moves on this sentence too, which has no more to the end.
    refine ⟨moves₀.length, fun v stack moves hhead _ hruns => ?_⟩
    have hruns' := hruns.of_same_start rfl (hhead₀.trans hhead.symm)
    exact hruns₀.length_le (halts_of_after haccept rfl) hruns'
  · exact ⟨0, fun v stack moves hhead hsentence _ => absurd ⟨v, hhead, hsentence⟩ hsome⟩

/-- The moves on a text are bounded: there are finitely many places in it and symbols to come
next. -/
theorem exists_bound (h : Tabulated g a false m t) (hfree : t.hasConflict = false)
    (hyields : ∀ xs, (∀ s ∈ xs, g.Occurs s) → ∃ ns y, g.Yields xs ns y) (w : List Symbol) :
    ∃ bound, ∀ moves c, Runs g t moves (startOn w) c → moves.length ≤ bound := by
  choose bound hbound using h.exists_bound_at hfree
  let places := w.inits ×ˢ (Symbol.endMark :: g.terminals.keys)
  refine ⟨(places.map fun place => bound place.1 place.2).sum, fun moves c hruns => ?_⟩
  obtain ⟨u, rest, v, stack, moves', hw, _, hsentence, hruns', hlength⟩ :=
    h.exists_sentence_of_runs hfree hyields hruns
  obtain ⟨s, hhead, hs⟩ : ∃ s, (v ++ [Symbol.endMark]).head? = some s ∧
      s ∈ Symbol.endMark :: g.terminals.keys := by
    cases v with
    | nil => exact ⟨Symbol.endMark, rfl, List.mem_cons_self ..⟩
    | cons s v =>
      have hs := hsentence.1 s (List.mem_append_right u (List.mem_cons_self ..))
      exact ⟨s, rfl, List.mem_cons_of_mem _ (Assoc.mem_def.mp hs)⟩
  have hplace : (u, s) ∈ places :=
    List.mem_product.mpr ⟨(List.mem_inits u w).mpr ⟨rest, hw.symm⟩, hs⟩
  calc moves.length
      = moves'.length := hlength.symm
    _ ≤ bound u s := hbound u s v stack moves' hhead hsentence hruns'
    _ ≤ (places.map fun place => bound place.1 place.2).sum :=
        List.single_le_sum (fun _ _ => Nat.zero_le _) _ (List.mem_map_of_mem hplace)

end Tabulated

/-! ### Traces -/

/-- The last row of the trace accepts or rejects. -/
def Trace.Ended (trace : Trace) : Prop :=
  ∃ row, trace.rows.getLast? = some row ∧
    (row.action = Move.text .accept ∨ row.action = Move.text .reject)

/-- Nothing comes after a last step, so that its row is one of these two. -/
theorem Trace.ended_ofSteps {steps : List Step} {t : Table} {last : Step}
    (hlast : steps.getLast? = some last)
    (hafter : last.configuration.after t last.move = .ok none) : (ofSteps steps).Ended := by
  refine ⟨last.row steps.length, ?_, ?_⟩
  · rw [ofSteps, List.getLast?_map, List.getLast?_zipIdx, hlast, Nat.add_sub_cancel_left]
    rfl
  · exact (eq_accept_or_reject_of_after hafter).imp (congrArg Move.text) (congrArg Move.text)

/-- Every text of terminals has its trace, whether it is a sentence or not, if each non-terminal is
defined and has an end. The last row of the trace accepts or rejects. -/
theorem simulate_terminates {text : String} {warnings : List Warning} {c : Compiled}
    (hc : compile false text = (warnings, .ok c)) (hfree : c.table.hasConflict = false)
    (hdefined : c.grammar.undefinedSymbols = .ok []) (hends : c.grammar.endless = .ok [])
    {w : List Symbol} (hw : ∀ s ∈ w, s ∈ c.grammar.terminals) :
    ∃ enough trace, trace.Ended ∧ ∀ limit, enough ≤ limit →
      simulate c.grammar c.table limit (Text.unwords w) = .ok trace := by
  obtain ⟨a, htable⟩ := compile_ok hc
  have hyields : ∀ xs, (∀ s ∈ xs, c.grammar.Occurs s) → ∃ ns y, c.grammar.Yields xs ns y :=
    fun _ => Grammar.exists_yields htable.consistent hdefined hends
  obtain ⟨bound, hbound⟩ := htable.exists_bound hfree hyields w
  obtain ⟨moves, last, hruns, hcases⟩ := run_cases c.grammar c.table (bound + 1) (startOn w)
  have hle := hbound moves last hruns
  -- The steps are more than the bound, so they are not used up, and nothing goes wrong either.
  rcases hcases with ⟨_, hlength⟩ | ⟨move, _, _, hmove, hafter, _⟩ | ⟨_, _, hfaults⟩
  · omega
  · obtain ⟨steps, hlast, hrun⟩ := run_of_runs hruns hmove hafter
    have hended : (Trace.ofSteps steps).Ended := Trace.ended_ofSteps hlast hafter
    refine ⟨bound + 1, Trace.ofSteps steps, hended, fun limit hlimit => ?_⟩
    rw [htable.simulate_unwords hfree hw, hrun limit (by omega)]
  · obtain ⟨hstack, _, rest, _, hinput, _⟩ :=
      htable.parsed_of_runs (parsed_startOn c.grammar c.automaton w) hruns
    obtain ⟨s, rest', hnext⟩ : ∃ s rest', last.input = s :: rest' := by
      rw [hinput]
      exact List.exists_cons_of_ne_nil (List.append_ne_nil_of_right_ne_nil _ (List.cons_ne_nil _ _))
    obtain ⟨move, next, hmove, hafter⟩ := htable.exists_after hfree hstack s rest'
    rw [← hnext] at hmove hafter
    exact absurd hfaults (not_faults_of_after hmove hafter)

/-- A name that cannot be reached, a name that can be empty, and a text that is no sentence: the
machine reduces the empty name, reads `b` and rejects `a`. -/
theorem simulate_terminates_of_unreachable :
    ∃ warnings c, compile false "S -> A b A -> a A | ε U -> b" = (warnings, .ok c) ∧
      c.table.hasConflict = false ∧ c.grammar.undefinedSymbols = .ok [] ∧
      c.grammar.endless = .ok [] ∧ (∀ s ∈ ["b", "a"], s ∈ c.grammar.terminals) ∧
      (∃ enough trace, trace.Ended ∧ ∀ limit, enough ≤ limit →
        simulate c.grammar c.table limit (Text.unwords ["b", "a"]) = .ok trace) ∧
      ∃ trace, simulate c.grammar c.table 3 (Text.unwords ["b", "a"]) = .ok trace ∧
        trace.texts = [["1", "0", "b a $", "Reduce(2) by A->ε"],
          ["2", "0 A 3", "b a $", "Shift(5)"], ["3", "0 A 3 b 5", "a $", "Reject"]] := by
  have hcompiled : (compile false "S -> A b A -> a A | ε U -> b").2.toOption.map
      (fun c => (c.table.hasConflict, decide (c.grammar.undefinedSymbols = .ok []),
        decide (c.grammar.endless = .ok []), c.grammar.terminals.keys)) =
      some (false, true, true, ["b", "a"]) := by
    decide +kernel
  have htexts : (compile false "S -> A b A -> a A | ε U -> b").2.toOption.map
      (fun c => (simulate c.grammar c.table 3 (Text.unwords ["b", "a"])).toOption.map Trace.texts) =
      some (some [["1", "0", "b a $", "Reduce(2) by A->ε"], ["2", "0 A 3", "b a $", "Shift(5)"],
        ["3", "0 A 3 b 5", "a $", "Reject"]]) := by
    decide +kernel
  obtain ⟨warnings, c, hc, hview⟩ := exists_of_compile _ hcompiled
  rw [hc] at htexts
  obtain ⟨hfree, hview⟩ := Prod.mk.inj hview
  obtain ⟨hdefined, hview⟩ := Prod.mk.inj hview
  obtain ⟨hends, hkeys⟩ := Prod.mk.inj hview
  have hdefined := of_decide_eq_true hdefined
  have hends := of_decide_eq_true hends
  have hw : ∀ s ∈ ["b", "a"], s ∈ c.grammar.terminals := by
    intro s hs
    rw [Assoc.mem_def, hkeys]
    exact hs
  exact ⟨warnings, c, hc, hfree, hdefined, hends, hw,
    simulate_terminates hc hfree hdefined hends hw, exists_of_toOption (Option.some.inj htexts)⟩

end ShiftReduce
