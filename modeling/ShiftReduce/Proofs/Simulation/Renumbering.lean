/-
The order of the rules does not matter.

Reordered grammars give the same sets, and automata and tables that differ in numbers only. Without
conflicts every run over one table is, with the new numbers, the run over the other: the moves are
the same one by one, and if one stops with a fault, so does the other.

* `Configuration.renumber`, `Move.renumber`, `Step.renumber`, `Fault.renumber` — new numbers of
  states and productions;
* `Automaton.OnPath.renumber` — stacks;
* `Compiled.Renumbered` — what is compiled, but for runs;
* `Compiled.Renumbered.move_eq`, `Compiled.Renumbered.after_eq` — one step;
* `Compiled.Renumbered.run_eq`, `Compiled.Renumbered.runOn_eq` — and runs;
* `Compiled.Renumbered.sameVerdicts` — traces and faults;
* `compile_reordered` — all of this for texts with the same rules in another order.
-/
import ShiftReduce.Proofs.Simulation.Correctness
import ShiftReduce.Proofs.Table.Renumbering

namespace ShiftReduce

open ShiftReduce.Configuration (topState)

/-! ### New numbers -/

/-- A stack with the new numbers of the states. -/
def renumberStack (φ : Equiv.Perm Nat) (stack : List (Symbol × Nat)) : List (Symbol × Nat) :=
  stack.map fun top => (top.1, φ top.2)

/-- A stack and its input with the new numbers of the states. -/
def Configuration.renumber (φ : Equiv.Perm Nat) (c : Configuration) : Configuration :=
  ⟨renumberStack φ c.stack, c.input⟩

/-- A move with the new number of its state or its production. -/
def Move.renumber (σ φ : Equiv.Perm Nat) : Move → Move
  | shift state => .shift (φ state)
  | reduce rule r => .reduce (σ rule) r
  | accept => .accept
  | reject => .reject

/-- A step with the new numbers. -/
def Step.renumber (σ φ : Equiv.Perm Nat) (step : Step) : Step :=
  ⟨step.configuration.renumber φ, step.move.renumber σ φ⟩

/-- A fault of a run with the new numbers. -/
def Fault.renumber (σ φ : Equiv.Perm Nat) : Fault → Fault
  | noGoto state s rule => .noGoto (φ state) s (σ rule)
  | fault => fault

/-- An outcome with the new numbers, those in a fault as well. -/
def renumberOutcome {α β : Type} (σ φ : Equiv.Perm Nat) (f : α → β) (outcome : Except Fault α) :
    Except Fault β := (f <$> outcome).mapError (Fault.renumber σ φ)

variable {σ φ : Equiv.Perm Nat}

theorem Fault.kind_renumber (fault : Fault) : (fault.renumber σ φ).kind = fault.kind := by
  cases fault <;> rfl

theorem Move.renumber_eq_accept_iff {move : Move} :
    move.renumber σ φ = .accept ↔ move = .accept := by
  cases move <;> simp [renumber]

/-! ### Stacks -/

theorem drop_renumberStack (stack : List (Symbol × Nat)) (n : Nat) :
    (renumberStack φ stack).drop n = renumberStack φ (stack.drop n) := List.map_drop.symm

theorem topState_renumberStack (hzero : φ 0 = 0) (stack : List (Symbol × Nat)) :
    topState (renumberStack φ stack) = φ (topState stack) := by
  cases stack with
  | nil => exact hzero.symm
  | cons top stack => rfl

theorem Automaton.OnPath.renumber {m m' : Automaton} (hm : m.Renumbered σ φ m')
    {stack : List (Symbol × Nat)} (h : m.OnPath stack) : m'.OnPath (renumberStack φ stack) := by
  induction h with
  | nil => exact .nil
  | @push stack s k _ hgoto ih =>
    refine .push ih ?_
    show m'.goto (topState (renumberStack φ stack)) s = some (φ k)
    rw [topState_renumberStack hm.zero, hm.goto, hgoto]
    rfl

/-! ### What is compiled -/

/-- What grammars compile to that differ in the order of their rules: the same sets, and automata
and tables that differ in numbers and orders only. -/
structure Compiled.Renumbered (σ φ : Equiv.Perm Nat) (c c' : Compiled) : Prop where
  grammar : Grammar.Reordered σ c.grammar c'.grammar
  first : c.grammar.first.Same c'.grammar.first
  follow : c.grammar.follow.Same c'.grammar.follow
  automaton : c.automaton.Renumbered σ φ c'.automaton
  table : c.table.Renumbered σ φ c'.table

/-- The same inputs give traces of the same length with the same verdict, or faults of the same
family. -/
structure Compiled.SameVerdicts (c c' : Compiled) : Prop where
  traces : ∀ limit text trace, c.simulate limit text = .ok trace → ∃ trace',
    c'.simulate limit text = .ok trace' ∧ trace'.rows.length = trace.rows.length ∧
      trace'.accepted = trace.accepted
  faults : ∀ limit text fault, c.simulate limit text = .error fault → ∃ fault',
    c'.simulate limit text = .error fault' ∧ fault'.kind = fault.kind

/-! ### Cells -/

/-- The rule of a production at a place. -/
theorem Grammar.toRule_productionAt (g : Grammar) (n : Nat) :
    Production.toRule <$> g.productionAt n =
      match g.rules[n]? with
      | some r => .ok r
      | none => .error .outOfRange := by
  have hpos : ¬(n : Int) < 0 := by omega
  rw [productionAt, atPosition, if_neg hpos, if_neg hpos, Int.toNat_natCast, rules,
    List.getElem?_map]
  cases g.productions[n]? <;> rfl

/-- What a cell with the new numbers says to do. -/
theorem Tabulated.moveOf_renumber {g g' : Grammar} (h : Grammar.Reordered σ g g')
    (cell : List (Action Nat)) :
    moveOf g' (cell.map (Action.renumber σ φ)) =
      renumberOutcome σ φ (Move.renumber σ φ) (moveOf g cell) := by
  match cell with
  | [.shift k] => rfl
  | [.reduce rule] =>
    have hmove : ∀ (g : Grammar) (n : Nat), moveOf g [.reduce n] =
        Move.reduce n <$> (Production.toRule <$> g.productionAt n) := fun g n =>
      (comp_map _ _ _)
    show moveOf g' [.reduce (σ rule)] = _
    rw [hmove, hmove, g'.toRule_productionAt, g.toRule_productionAt, h.rules.getElem?_eq]
    cases g.rules[rule]? <;> rfl
  | [.accept] => rfl
  | [] => rfl
  | [.goto _] => rfl
  | x :: y :: cell => cases x <;> rfl

/-! ### Traces -/

theorem Trace.length_rows_renumber (steps : List Step) :
    (ofSteps (steps.map (Step.renumber σ φ))).rows.length = (ofSteps steps).rows.length := by
  simp [ofSteps]

theorem Trace.accepted_renumber (steps : List Step) :
    (ofSteps (steps.map (Step.renumber σ φ))).accepted = (ofSteps steps).accepted := by
  rw [accepted_ofSteps, accepted_ofSteps, List.getLast?_map]
  cases steps.getLast? with
  | none => rfl
  | some step => exact decide_eq_decide.mpr Move.renumber_eq_accept_iff

theorem Compiled.simulate_eq (c : Compiled) (limit : Nat) (text : String) :
    c.simulate limit text =
      match runOn c.grammar c.table limit (Text.wordsOf text) with
      | .ok (some steps) => .ok (Trace.ofSteps steps)
      | .ok none => .error (.unfinished limit)
      | .error fault => .error fault := by
  rw [simulate, ShiftReduce.simulate]
  rcases runOn c.grammar c.table limit (Text.wordsOf text) with fault | _ | steps <;> rfl

/-! ### Runs -/

namespace Compiled.Renumbered

variable {c c' : Compiled} {a a' : Augmented} {full : Bool} {n : Nat} {s : Symbol}
  {x : Configuration}
  (h : c.Renumbered σ φ c') (ht : Tabulated c.grammar a full c.automaton c.table)
  (ht' : Tabulated c'.grammar a' full c'.automaton c'.table)

include h ht in
/-- Without conflicts there is no order within a cell. -/
theorem actions_eq (hfree : c.table.hasConflict = false) (n : Nat) (s : Symbol) :
    c'.table.actions (φ n) s = (c.table.actions n s).map (Action.renumber σ φ) := by
  have hperm := h.table.actions n s
  have hlength := ht.length_actions_le hfree n s
  match hcell : c.table.actions n s with
  | [] =>
    rw [hcell] at hperm
    exact hperm.eq_nil
  | [action] =>
    rw [hcell] at hperm
    exact hperm.eq_singleton
  | _ :: _ :: _ =>
    rw [hcell, List.length_cons, List.length_cons] at hlength
    omega

include h ht ht'

theorem move_eq (hfree : c.table.hasConflict = false) (hx : c.automaton.OnPath x.stack) :
    (x.renumber φ).move c'.grammar c'.table =
      renumberOutcome σ φ (Move.renumber σ φ) (x.move c.grammar c.table) := by
  obtain ⟨stack, input⟩ := x
  cases input with
  | nil => rfl
  | cons s rest =>
    have hx' := hx.renumber h.automaton
    rw [Configuration.renumber, ht.move_eq hx, ht'.move_eq hx',
      topState_renumberStack h.automaton.zero, h.actions_eq ht hfree,
      Tabulated.moveOf_renumber h.grammar]

theorem reduce_eq (hfree : c.table.hasConflict = false) (hx : c.automaton.OnPath x.stack)
    (rule : Nat) (r : Rule) :
    (x.renumber φ).reduce c'.table (σ rule) r =
      renumberOutcome σ φ (Configuration.renumber φ) (x.reduce c.table rule r) := by
  have hlength : (x.renumber φ).stack.length = x.stack.length := List.length_map _
  have hbelow := (hx.drop r.rhs.length).topState_lt ht.built.toCoherent
  have hbelow' := ((hx.drop r.rhs.length).renumber h.automaton).topState_lt ht'.built.toCoherent
  rw [Configuration.reduce, Configuration.reduce, hlength]
  by_cases hshort : x.stack.length < r.rhs.length
  · rw [if_pos hshort, if_pos hshort]
    rfl
  · rw [if_neg hshort, if_neg hshort]
    have hdrop : (x.renumber φ).stack.drop r.rhs.length =
        renumberStack φ (x.stack.drop r.rhs.length) := drop_renumberStack ..
    dsimp only
    rw [hdrop, ht.actionsAt_eq hbelow, ht'.actionsAt_eq hbelow',
      topState_renumberStack h.automaton.zero, h.actions_eq ht hfree]
    generalize c.table.actions _ r.name = cell
    -- Only a goto and nothing else leads on.
    rcases cell with _ | ⟨action, _ | ⟨_, _⟩⟩
    · rfl
    · cases action <;> rfl
    · cases action <;> rfl

theorem after_eq (hfree : c.table.hasConflict = false) (hx : c.automaton.OnPath x.stack)
    (move : Move) :
    (x.renumber φ).after c'.table (move.renumber σ φ) =
      renumberOutcome σ φ (Option.map (Configuration.renumber φ)) (x.after c.table move) := by
  cases move with
  | shift k =>
    obtain ⟨stack, input⟩ := x
    cases input <;> rfl
  | reduce rule r =>
    show some <$> (x.renumber φ).reduce c'.table (σ rule) r = _
    rw [h.reduce_eq ht ht' hfree hx, Configuration.after]
    cases x.reduce c.table rule r <;> rfl
  | accept => rfl
  | reject => rfl

/-- A run is, with the new numbers, the run from the renumbered configuration. -/
theorem run_eq (hfree : c.table.hasConflict = false) (limit : Nat)
    (hx : c.automaton.OnPath x.stack) :
    run c'.grammar c'.table limit (x.renumber φ) =
      renumberOutcome σ φ (Option.map (List.map (Step.renumber σ φ)))
        (run c.grammar c.table limit x) := by
  induction limit generalizing x with
  | zero => rfl
  | succ limit ih =>
    have hmove := h.move_eq ht ht' hfree hx
    cases hmove₀ : x.move c.grammar c.table with
    | error fault =>
      rw [hmove₀] at hmove
      rw [run_of_faultsBy (.inl hmove₀), run_of_faultsBy (.inl hmove)]
      rfl
    | ok move =>
      rw [hmove₀] at hmove
      have hafter := h.after_eq ht ht' hfree hx move
      cases hafter₀ : x.after c.table move with
      | error fault =>
        rw [hafter₀] at hafter
        rw [run_of_faultsBy (.inr ⟨move, hmove₀, hafter₀⟩),
          run_of_faultsBy (.inr ⟨_, hmove, hafter⟩)]
        rfl
      | ok next =>
        rw [hafter₀] at hafter
        cases next with
        | none =>
          rw [run_of_after hmove₀ hafter₀, run_of_after hmove hafter]
          rfl
        | some y =>
          have hy := (ht.takes_cases hx ⟨hmove₀, hafter₀⟩).1
          rw [run_of_takes ⟨hmove₀, hafter₀⟩, run_of_takes ⟨hmove, hafter⟩, ih hy]
          rcases run c.grammar c.table limit y with fault | _ | steps <;> rfl

/-- The runs over all lists of tokens are the same but for numbers. -/
theorem runOn_eq (limit : Nat) (tokens : List Symbol) :
    runOn c'.grammar c'.table limit tokens =
      renumberOutcome σ φ (Option.map (List.map (Step.renumber σ φ)))
        (runOn c.grammar c.table limit tokens) := by
  have hunknown : unknownToken? c'.grammar tokens = unknownToken? c.grammar tokens := by
    simp only [unknownToken?, h.grammar.mem_terminals_iff ht.consistent ht'.consistent]
  rw [runOn, runOn, h.table.hasConflict, hunknown]
  cases hfree : c.table.hasConflict with
  | true => rfl
  | false =>
    cases unknownToken? c.grammar tokens with
    | some token => rfl
    | none => exact h.run_eq (x := startOn tokens) ht ht' hfree limit .nil

theorem exists_trace {limit : Nat} {text : String} {trace : Trace}
    (htrace : c.simulate limit text = .ok trace) :
    ∃ trace', c'.simulate limit text = .ok trace' ∧ trace'.rows.length = trace.rows.length ∧
      trace'.accepted = trace.accepted := by
  rw [Compiled.simulate_eq] at htrace
  rw [Compiled.simulate_eq, h.runOn_eq ht ht']
  rcases hrun : runOn c.grammar c.table limit (Text.wordsOf text) with fault | _ | steps
  · rw [hrun] at htrace
    cases htrace
  · rw [hrun] at htrace
    cases htrace
  · rw [hrun] at htrace
    obtain rfl := Except.ok.inj htrace
    exact ⟨_, rfl, Trace.length_rows_renumber steps, Trace.accepted_renumber steps⟩

theorem exists_fault {limit : Nat} {text : String} {fault : Fault}
    (hfault : c.simulate limit text = .error fault) :
    ∃ fault', c'.simulate limit text = .error fault' ∧ fault'.kind = fault.kind := by
  rw [Compiled.simulate_eq] at hfault
  rw [Compiled.simulate_eq, h.runOn_eq ht ht']
  rcases hrun : runOn c.grammar c.table limit (Text.wordsOf text) with fault' | _ | steps
  · rw [hrun] at hfault
    obtain rfl := Except.error.inj hfault
    exact ⟨_, rfl, fault'.kind_renumber⟩
  · rw [hrun] at hfault
    obtain rfl := Except.error.inj hfault
    exact ⟨_, rfl, rfl⟩
  · rw [hrun] at hfault
    cases hfault

theorem sameVerdicts : c.SameVerdicts c' :=
  ⟨fun _ _ _ => h.exists_trace ht ht', fun _ _ _ => h.exists_fault ht ht'⟩

end Compiled.Renumbered

/-! ### Texts -/

theorem Compiled.IsOf.settled {c : Compiled} {full : Bool} {text : String} (h : c.IsOf full text) :
    c.grammar.Settled := by
  obtain ⟨a, ht⟩ := h.tabulated
  exact ht.settled h.leastSets

theorem Compiled.IsOf.rules_eq {c : Compiled} {full : Bool} {text : String}
    (h : c.IsOf full text) : c.grammar.rules = (Grammar.parse text).1.rules ∧
      c.grammar.start = (Grammar.parse text).1.start := by
  obtain ⟨first, follow, heq⟩ := h.grammar_eq
  rw [heq]
  generalize (Grammar.parse text).1 = g
  exact ⟨rfl, rfl⟩

/-- What reordered grammars compile to differs in numbers and orders only. -/
theorem Grammar.Reordered.exists_compiled {c c' : Compiled} {full : Bool} {text text' : String}
    (h : Reordered σ c.grammar c'.grammar) (hof : c.IsOf full text) (hof' : c'.IsOf full text') :
    ∃ φ, c.Renumbered σ φ c' := by
  obtain ⟨a, ht⟩ := hof.tabulated
  obtain ⟨a', ht'⟩ := hof'.tabulated
  have hfollow := h.follow_same hof.settled hof'.settled
  obtain ⟨φ, hm⟩ := h.exists_renumbered ht.consistent ht'.consistent ht.augmented ht'.augmented
    ht.built ht'.built
  exact ⟨φ, h, h.first_same hof.settled hof'.settled, hfollow, hm,
    ht.renumbered ht' h hfollow hm⟩

/-- The order of the rules does not matter. Texts with the same rules, each as often, and with the
same start symbol compile to grammars with the same sets, and to automata and tables that differ in
numbers and orders only; all runs are the same but for numbers. -/
theorem compile_reordered {text text' : String} (hne : (Grammar.parse text).1.productions ≠ [])
    (hrules : (Grammar.parse text).1.rules.Perm (Grammar.parse text').1.rules)
    (hstart : (Grammar.parse text').1.start = (Grammar.parse text).1.start) (full : Bool) :
    ∃ warnings warnings' c c' σ φ, compile full text = (warnings, .ok c) ∧
      compile full text' = (warnings', .ok c') ∧ c.Renumbered σ φ c' ∧
      (∀ limit tokens, runOn c'.grammar c'.table limit tokens =
        renumberOutcome σ φ (Option.map (List.map (Step.renumber σ φ)))
          (runOn c.grammar c.table limit tokens)) ∧
      c.SameVerdicts c' := by
  have hne' : (Grammar.parse text').1.productions ≠ [] := by
    intro hnil
    have hnone : (Grammar.parse text').1.rules = [] := by rw [Grammar.rules, hnil, List.map_nil]
    rw [hnone, Grammar.rules, List.perm_nil, List.map_eq_nil_iff] at hrules
    exact hne hrules
  obtain ⟨g, _, hall⟩ := exists_compile_isOf hne
  obtain ⟨g', _, hall'⟩ := exists_compile_isOf hne'
  obtain ⟨warnings, m, t, hcompile, ht, hof⟩ := hall full
  obtain ⟨warnings', m', t', hcompile', ht', hof'⟩ := hall' full
  obtain ⟨σ, hσ⟩ := exists_renumbering hrules
  rw [← hof.rules_eq.1, ← hof'.rules_eq.1] at hσ
  rw [← hof.rules_eq.2, ← hof'.rules_eq.2] at hstart
  obtain ⟨φ, h⟩ := Grammar.Reordered.exists_compiled ⟨hσ, hstart⟩ hof hof'
  exact ⟨warnings, warnings', _, _, σ, φ, hcompile, hcompile', h, h.runOn_eq ht ht',
    h.sameVerdicts ht ht'⟩

/-- A rule that is there twice, an empty right side, and rules of one name apart from each other. -/
theorem compile_reordered_twice :
    (Grammar.parse "S -> A b | c D -> a A -> a | ε D -> a").1.productions ≠ [] ∧
      (Grammar.parse "S -> A b | c D -> a A -> a | ε D -> a").1.rules.Perm
        (Grammar.parse "S -> c D -> a | a A -> ε | a S -> A b").1.rules ∧
      (Grammar.parse "S -> c D -> a | a A -> ε | a S -> A b").1.start =
        (Grammar.parse "S -> A b | c D -> a A -> a | ε D -> a").1.start ∧
      ∃ warnings warnings' c c' σ φ,
        compile false "S -> A b | c D -> a A -> a | ε D -> a" = (warnings, .ok c) ∧
        compile false "S -> c D -> a | a A -> ε | a S -> A b" = (warnings', .ok c') ∧
        c.Renumbered σ φ c' ∧ c.table.hasConflict = false ∧
        ∃ trace trace', c.simulate 9 "a b" = .ok trace ∧ c'.simulate 9 "a b" = .ok trace' ∧
          trace'.rows.length = trace.rows.length ∧ trace'.accepted = true := by
  have hne : (Grammar.parse "S -> A b | c D -> a A -> a | ε D -> a").1.productions ≠ [] := by
    decide +kernel
  have hrules : (Grammar.parse "S -> A b | c D -> a A -> a | ε D -> a").1.rules.Perm
      (Grammar.parse "S -> c D -> a | a A -> ε | a S -> A b").1.rules := by
    decide +kernel
  have hstart : (Grammar.parse "S -> c D -> a | a A -> ε | a S -> A b").1.start =
      (Grammar.parse "S -> A b | c D -> a A -> a | ε D -> a").1.start := by
    decide +kernel
  obtain ⟨warnings, warnings', c, c', σ, φ, hc, hc', h, _, hsame⟩ :=
    compile_reordered hne hrules hstart false
  have hview : (compile false "S -> A b | c D -> a A -> a | ε D -> a").2.toOption.map (fun c =>
      (c.table.hasConflict, (c.simulate 9 "a b").toOption.map Trace.accepted)) =
      some (false, some true) := by
    decide +kernel
  rw [hc] at hview
  obtain ⟨hfree, haccepted⟩ := Prod.mk.inj (Option.some.inj hview)
  obtain ⟨trace, htrace, haccepted⟩ := exists_of_toOption haccepted
  obtain ⟨trace', htrace', hlength, hverdict⟩ := hsame.traces 9 "a b" trace htrace
  exact ⟨hne, hrules, hstart, warnings, warnings', c, c', σ, φ, hc, hc', h, hfree, trace, trace',
    htrace, htrace', hlength, hverdict.trans haccepted⟩

end ShiftReduce
