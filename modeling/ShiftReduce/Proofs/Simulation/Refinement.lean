/-
With every production in state 0 the machine does what it does with the start item alone.

Paths with the same symbols relate the states of the two automata. Of related states the second
holds all items of the first, so its cells hold counterparts of all actions of the first, and a
table without conflicts leaves room for nothing else.

* `carries_full`, `Automaton.Related.subset` — what is reached from the start item is reached from
  all productions;
* `Automaton.Related.goto_full`, `Automaton.Related.finalState` — transitions and acceptance are
  carried over;
* `Twin` — the two automata of a grammar and their tables;
* `Twin.exists_action`, `Twin.length_actions_le` — and so are actions, and conflicts with them;
* `Twin.takes`, `Twin.run_of_accepted` — one step, and a run that accepts;
* `compile_full_simulates` — all of this for what a text compiles to.
-/
import ShiftReduce.Proofs.Automaton.Pairing
import ShiftReduce.Proofs.Simulation.Correctness

namespace ShiftReduce

open ShiftReduce.Configuration (topState)

/-! ### Related states -/

/-- Whatever is reached from the start item is reached from all productions. -/
theorem carries_full {g : Grammar} {a : Augmented} :
    Carries id (itemNfa g a false) (itemNfa g a true) := ⟨mem_eval_full, fun _ => rfl⟩

namespace Automaton

variable {g : Grammar} {a : Augmented} {m m' : Automaton} {p q : Nat} {s : Symbol}

/-- Every path has its counterpart. -/
theorem Built.exists_path_full (h : m.Built g a false) (h' : m'.Built g a true)
    {ts : List Transition} (hp : m.Path ts p) :
    ∃ ts' q, m'.Path ts' q ∧ spelling ts' = spelling ts :=
  h'.exists_path_of_carries carries_full h.toCoherent hp

namespace Related

/-- Of related states the second holds all items of the first. -/
theorem subset (hr : Related m m' p q) (h : m.Built g a false) (h' : m'.Built g a true) :
    ∃ items items', m.states[p]? = some items ∧ m'.states[q]? = some items' ∧ items ⊆ items' :=
  hr.exists_items carries_full h.toCoherent h'.toCoherent

theorem goto_full (hr : Related m m' p q) (h : m.Built g a false) (h' : m'.Built g a true)
    {k : Nat} (hgoto : m.goto p s = some k) : ∃ k', m'.goto q s = some k' ∧ Related m m' k k' :=
  hr.goto carries_full h.toCoherent h' hgoto

theorem finalState (hr : Related m m' p q) (hg : g.Consistent) (h : m.Built g a false)
    (h' : m'.Built g a true) (hfinal : m.finalState = some p) : m'.finalState = some q := by
  obtain ⟨items, items', hitems, hitems', hsub⟩ := hr.subset h h'
  obtain ⟨items₁, hitems₁, haccept⟩ := h.mem_finalState p hfinal
  obtain rfl := Option.some.inj (hitems.symm.trans hitems₁)
  obtain ⟨f, hfinal', _, honly⟩ := h'.finalState_eq hg
  rw [hfinal', (honly q items' hitems').mp (hsub haccept)]

end Related

end Automaton

/-! ### Actions -/

/-- The same action, with states that are related. -/
inductive Action.Corresponds (R : Nat → Nat → Prop) : Action Nat → Action Nat → Prop
  | shift {k k' : Nat} : R k k' → Corresponds R (.shift k) (.shift k')
  | goto {k k' : Nat} : R k k' → Corresponds R (.goto k) (.goto k')
  | reduce (rule : Nat) : Corresponds R (.reduce rule) (.reduce rule)
  | accept : Corresponds R .accept .accept

/-- The automata of a grammar with their tables: one from the start item alone, and one with every
production in state 0. -/
structure Twin (g : Grammar) (a : Augmented) (m : Automaton) (t : Table) (m' : Automaton)
    (t' : Table) : Prop where
  plain : Tabulated g a false m t
  full : Tabulated g a true m' t'

namespace Twin

variable {g : Grammar} {a : Augmented} {m m' : Automaton} {t t' : Table} {p q : Nat} {s : Symbol}

/-- Every action has its counterpart. -/
theorem exists_action (h : Twin g a m t m' t') (hr : m.Related m' p q) {action : Action Nat}
    (haction : action ∈ t.actions p s) :
    ∃ action' ∈ t'.actions q s, action.Corresponds (m.Related m') action' := by
  have hgrounds := h.plain.mem_actions_iff.mp haction
  have hplain := h.plain.built
  have hfull := h.full.built
  cases action with
  | shift k =>
    obtain ⟨hgoto, hs⟩ := hgrounds
    obtain ⟨k', hgoto', hr'⟩ := hr.goto_full hplain hfull hgoto
    exact ⟨.shift k', h.full.mem_actions_iff.mpr ⟨hgoto', hs⟩, .shift hr'⟩
  | goto k =>
    obtain ⟨hgoto, hs⟩ := hgrounds
    obtain ⟨k', hgoto', hr'⟩ := hr.goto_full hplain hfull hgoto
    exact ⟨.goto k', h.full.mem_actions_iff.mpr ⟨hgoto', hs⟩, .goto hr'⟩
  | reduce rule =>
    obtain ⟨items, i, hitems, hi, hreduces, hrule⟩ := hgrounds
    obtain ⟨items₁, items', hitems₁, hitems', hsub⟩ := hr.subset hplain hfull
    obtain rfl := Option.some.inj (hitems.symm.trans hitems₁)
    refine ⟨.reduce rule, h.full.mem_actions_iff.mpr ?_, .reduce rule⟩
    exact ⟨items', i, hitems', hsub hi, hreduces, hrule⟩
  | accept =>
    obtain ⟨rfl, hfinal⟩ := hgrounds
    have hfinal' := hr.finalState h.plain.consistent hplain hfull hfinal
    exact ⟨.accept, h.full.mem_actions_iff.mpr ⟨rfl, hfinal'⟩, .accept⟩

theorem length_moveActions_le (h : Twin g a m t m' t') (hr : m.Related m' p q) (s : Symbol) :
    (moveActions g m p s).length ≤ (moveActions g m' q s).length := by
  unfold moveActions
  by_cases hs : s = Symbol.endMark
  · rw [if_pos hs, if_pos hs]
    by_cases hfinal : m.finalState = some p
    · have hfinal' := hr.finalState h.plain.consistent h.plain.built h.full.built hfinal
      rw [if_pos hfinal, if_pos hfinal']
    · rw [if_neg hfinal]
      exact Nat.zero_le _
  · rw [if_neg hs, if_neg hs]
    cases hgoto : m.goto p s with
    | none => exact Nat.zero_le _
    | some k =>
      obtain ⟨k', hgoto', _⟩ := hr.goto_full h.plain.built h.full.built hgoto
      rw [hgoto']
      exact Nat.le_refl 1

/-- Related cells hold no fewer actions, reductions by different items each counted. -/
theorem length_actions_le (h : Twin g a m t m' t') (hr : m.Related m' p q) (s : Symbol) :
    (t.actions p s).length ≤ (t'.actions q s).length := by
  obtain ⟨items, items', hitems, hitems', hsub⟩ := hr.subset h.plain.built h.full.built
  have hnodup := h.plain.built.nodup items (List.mem_of_getElem? hitems)
  have hcount := (hnodup.subperm hsub).countP_le fun i => (reductionOn g s i).isSome
  have hmoves := h.length_moveActions_le hr s
  rw [h.plain.length_actions, h.full.length_actions, itemsAt, itemsAt, hitems, hitems']
  exact Nat.add_le_add hmoves hcount

theorem exists_related (h : Twin g a m t m' t') (hp : p < m.states.length) :
    ∃ q, m.Related m' p q := h.full.built.exists_related carries_full h.plain.built hp

/-- If the second table has no conflict, neither has the first. -/
theorem hasConflict_plain (h : Twin g a m t m' t') (hfree : t'.hasConflict = false) :
    t.hasConflict = false := by
  by_contra hconflict
  obtain ⟨p, s, htwo⟩ := h.plain.hasConflict_iff.mp (Bool.not_eq_false _ ▸ hconflict)
  have hpos : 0 < (t.actions p s).length := by omega
  obtain ⟨action, haction⟩ := List.exists_mem_of_length_pos hpos
  obtain ⟨q, hr⟩ := h.exists_related (h.plain.lt_of_mem_actions haction)
  have hle := h.length_actions_le hr s
  have hone := h.full.length_actions_le hfree q s
  omega

end Twin

/-! ### Runs -/

/-- The same move, to states that are related. -/
inductive Move.Corresponds (R : Nat → Nat → Prop) : Move → Move → Prop
  | shift {k k' : Nat} : R k k' → Corresponds R (.shift k) (.shift k')
  | reduce (rule : Nat) (r : Rule) : Corresponds R (.reduce rule r) (.reduce rule r)
  | accept : Corresponds R .accept .accept

/-- Configurations with the same input and with the same symbols on their stacks, whose states are
those that the transitions on these lead to. -/
structure Configuration.Matches (m m' : Automaton) (c c' : Configuration) : Prop where
  input : c'.input = c.input
  word : wordOf c'.stack = wordOf c.stack
  onPath : m.OnPath c.stack
  onPath_full : m'.OnPath c'.stack

/-- The same move in configurations that match. -/
structure Step.Matches (m m' : Automaton) (x y : Step) : Prop where
  configuration : x.configuration.Matches m m' y.configuration
  move : x.move.Corresponds (m.Related m') y.move

theorem Automaton.OnPath.related {m m' : Automaton} {stack stack' : List (Symbol × Nat)}
    (h : m.OnPath stack) (h' : m'.OnPath stack') (heq : wordOf stack' = wordOf stack) :
    m.Related m' (topState stack) (topState stack') := by
  obtain ⟨ts, hp, hts⟩ := h.exists_path
  obtain ⟨ts', hq, hts'⟩ := h'.exists_path
  exact ⟨ts, ts', hp, hq, hts'.trans (heq.trans hts.symm)⟩

namespace Twin

variable {g : Grammar} {a : Augmented} {m m' : Automaton} {t t' : Table} {c c' d : Configuration}
  {move : Move}

/-- One step, with the same symbols. -/
theorem takes (h : Twin g a m t m' t') (hfree : t'.hasConflict = false) (hc : c.Matches m m' c')
    (ht : Takes g t c move d) :
    ∃ move' d', Takes g t' c' move' d' ∧ move.Corresponds (m.Related m') move' ∧
      d.Matches m m' d' := by
  have hplain := h.hasConflict_plain hfree
  obtain ⟨stack, input⟩ := c
  obtain ⟨stack', input'⟩ := c'
  obtain ⟨hinput, hword, hpath, hpath'⟩ := hc
  dsimp only at hinput hword hpath hpath'
  subst hinput
  cases input' with
  | nil => cases ht.1
  | cons s rest =>
    have hr := hpath.related hpath' hword
    rcases h.plain.move_cases hpath s rest with
      ⟨k, hshift, hgoto, hs⟩ | ⟨n, i, _, hn, hi, hreduces⟩ | ⟨haccept, _⟩ | hreject
    · obtain ⟨k', hgoto', hr'⟩ := hr.goto_full h.plain.built h.full.built hgoto
      obtain ⟨rfl, rfl⟩ := ht.unique (h.plain.takes_shift hplain hpath hgoto hs rest)
      refine ⟨.shift k', _, h.full.takes_shift hfree hpath' hgoto' hs rest, .shift hr', rfl, ?_,
        .push hpath hgoto, .push hpath' hgoto'⟩
      rw [wordOf_cons, wordOf_cons, hword]
    · obtain ⟨k, hgoto⟩ := h.plain.exists_goto_of_reduces hpath hi hreduces
      obtain ⟨rfl, rfl⟩ :=
        ht.unique (h.plain.takes_reduce hplain hpath hi hreduces hn hgoto rest)
      have hi' : i ∈ (itemNfa g a true).eval (wordOf stack') := hword ▸ mem_eval_full hi
      obtain ⟨v, hv, hbelow, honpath, _⟩ := hpath.exposed hi hreduces.isComplete
      obtain ⟨v', hv', hbelow', honpath', _⟩ := hpath'.exposed hi' hreduces.isComplete
      -- The same symbols are left below the right side.
      obtain rfl : v' = v := List.append_cancel_right (hv'.symm.trans (hword.trans hv))
      have hsame := hbelow'.trans hbelow.symm
      obtain ⟨k', hgoto', _⟩ :=
        (honpath.related honpath' hsame).goto_full h.plain.built h.full.built hgoto
      refine ⟨.reduce n i.rule, _,
        h.full.takes_reduce hfree hpath' hi' hreduces hn hgoto' rest, .reduce n i.rule, rfl, ?_,
        .push honpath hgoto, .push honpath' hgoto'⟩
      rw [wordOf_cons, wordOf_cons, hsame]
    · obtain rfl := Except.ok.inj (ht.1.symm.trans haccept)
      cases ht.2
    · obtain rfl := Except.ok.inj (ht.1.symm.trans hreject)
      cases ht.2

theorem move_accept (h : Twin g a m t m' t') (hfree : t'.hasConflict = false)
    (hc : c.Matches m m' c') (hmove : c.move g t = .ok .accept) : c'.move g t' = .ok .accept := by
  obtain ⟨stack, input⟩ := c
  obtain ⟨stack', input'⟩ := c'
  obtain ⟨hinput, hword, hpath, hpath'⟩ := hc
  dsimp only at hinput hword hpath hpath'
  subst hinput
  cases input' with
  | nil => cases hmove
  | cons s rest =>
    rcases h.plain.move_cases hpath s rest with
      ⟨k, hshift, _⟩ | ⟨n, i, hreduce, _⟩ | ⟨_, rfl, hfinal⟩ | hreject
    · cases hmove.symm.trans hshift
    · cases hmove.symm.trans hreduce
    · have hr := hpath.related hpath' hword
      exact h.full.move_accept hfree hpath'
        (hr.finalState h.plain.consistent h.plain.built h.full.built hfinal) rest
    · cases hmove.symm.trans hreject

/-- A run that accepts, step by step. -/
theorem run_of_accepted (h : Twin g a m t m' t') (hfree : t'.hasConflict = false) {limit : Nat}
    {steps : List Step} (hc : c.Matches m m' c') (hrun : run g t limit c = .ok (some steps))
    (haccepted : ∀ last, steps.getLast? = some last → last.move = .accept) :
    ∃ steps', run g t' limit c' = .ok (some steps') ∧
      List.Forall₂ (Step.Matches m m') steps steps' := by
  induction limit generalizing c c' steps with
  | zero => cases hrun
  | succ limit ih =>
    rcases takes_or_ends_or_faults g t c with ⟨move, c₁, ht⟩ | ⟨move, hmove, hafter⟩ | hfaults
    · rw [run_of_takes ht] at hrun
      obtain ⟨outcome, hrest, hsome⟩ := map_eq_ok_iff.mp hrun
      obtain ⟨rest, rfl, rfl⟩ := Option.map_eq_some_iff.mp hsome
      obtain ⟨move', c₁', ht', hmoves, hc₁⟩ := h.takes hfree hc ht
      obtain ⟨rest', hrest', hall⟩ := ih hc₁ hrest fun last hlast =>
        haccepted last (by rw [List.getLast?_cons, hlast]; rfl)
      refine ⟨⟨c', move'⟩ :: rest', ?_, .cons ⟨hc, hmoves⟩ hall⟩
      rw [run_of_takes ht', hrest']
      rfl
    · rw [run_of_after hmove hafter] at hrun
      obtain rfl := Option.some.inj (Except.ok.inj hrun)
      obtain rfl : move = .accept := haccepted ⟨c, move⟩ rfl
      have hmove' := h.move_accept hfree hc hmove
      exact ⟨[⟨c', .accept⟩], run_of_after hmove' rfl limit, .cons ⟨hc, .accept⟩ .nil⟩
    · obtain ⟨fault, hfault⟩ := run_of_faults hfaults limit
      cases hrun.symm.trans hfault

end Twin

/-- The last steps of runs that match are both acceptance, or neither is. -/
theorem accepted_of_matches {m m' : Automaton} {steps steps' : List Step}
    (h : List.Forall₂ (Step.Matches m m') steps steps') :
    (Trace.ofSteps steps').accepted = (Trace.ofSteps steps).accepted := by
  rw [Trace.accepted_ofSteps, Trace.accepted_ofSteps, List.getLast?_eq_head?_reverse,
    List.getLast?_eq_head?_reverse]
  have hreverse := List.forall₂_reverse_iff.mpr h
  generalize steps.reverse = last at hreverse ⊢
  generalize steps'.reverse = last' at hreverse ⊢
  cases hreverse with
  | nil => rfl
  | @cons step step' _ _ hlast _ =>
    obtain ⟨_, move⟩ := step
    obtain ⟨_, move'⟩ := step'
    cases hlast.move <;> rfl

/-- Every path has its counterpart, and the states at their ends hold the same items and more, and
have the same actions and more. If the table has no conflict then neither has the other, and what
the other accepts it accepts by the same shifts and reductions. -/
structure Compiled.Simulates (c' c : Compiled) : Prop where
  grammar : c'.grammar = c.grammar
  paths : ∀ ts p, c.automaton.Path ts p →
    ∃ ts' q, c'.automaton.Path ts' q ∧ Automaton.spelling ts' = Automaton.spelling ts
  items : ∀ p q, c.automaton.Related c'.automaton p q → ∃ items items',
    c.automaton.states[p]? = some items ∧ c'.automaton.states[q]? = some items' ∧ items ⊆ items'
  actions : ∀ p q, c.automaton.Related c'.automaton p q → ∀ s, ∀ action ∈ c.table.actions p s,
    ∃ action' ∈ c'.table.actions q s,
      action.Corresponds (c.automaton.Related c'.automaton) action'
  conflicts : c'.table.hasConflict = false → c.table.hasConflict = false
  runs : c'.table.hasConflict = false → ∀ limit input trace,
    c.simulate limit input = .ok trace → trace.accepted = true → ∃ steps steps',
      runOn c.grammar c.table limit (Text.wordsOf input) = .ok (some steps) ∧
      trace = Trace.ofSteps steps ∧
      runOn c'.grammar c'.table limit (Text.wordsOf input) = .ok (some steps') ∧
      c'.simulate limit input = .ok (Trace.ofSteps steps') ∧
      (Trace.ofSteps steps').accepted = true ∧
      List.Forall₂ (Step.Matches c.automaton c'.automaton) steps steps'

/-- A text with a rule compiles with either kind of state 0, and what it compiles to with every
production there simulates what it compiles to with the start item alone. -/
theorem compile_full_simulates {text : String} (hne : (Grammar.parse text).1.productions ≠ []) :
    ∃ warnings warnings' c c', compile false text = (warnings, .ok c) ∧
      compile true text = (warnings', .ok c') ∧ c'.Simulates c := by
  obtain ⟨g, a, hall⟩ := exists_compile hne
  obtain ⟨warnings, m, t, hcompile, hplain⟩ := hall false
  obtain ⟨warnings', m', t', hcompile', hfull⟩ := hall true
  have h : Twin g a m t m' t' := ⟨hplain, hfull⟩
  refine ⟨warnings, warnings', _, _, hcompile, hcompile', rfl,
    fun ts p hp => hplain.built.exists_path_full hfull.built hp,
    fun p q hr => hr.subset hplain.built hfull.built, fun p q hr s action => h.exists_action hr,
    h.hasConflict_plain, fun hfree limit input trace htrace haccepted => ?_⟩
  obtain ⟨_, hw, steps, hrun, rfl⟩ := simulate_eq_ok htrace
  have hstart : (startOn (Text.wordsOf input)).Matches m m' (startOn (Text.wordsOf input)) :=
    ⟨rfl, rfl, .nil, .nil⟩
  obtain ⟨steps', hrun', hmatches⟩ := h.run_of_accepted hfree hstart hrun fun last hlast => by
    rw [Trace.accepted_ofSteps, hlast] at haccepted
    exact of_decide_eq_true haccepted
  have hrunOn := (Tabulated.runOn_eq (h.hasConflict_plain hfree) hw limit).trans hrun
  have hrunOn' := (Tabulated.runOn_eq hfree hw limit).trans hrun'
  exact ⟨steps, steps', hrunOn, rfl, hrunOn', bind_eq_ok_iff.mpr ⟨_, hrunOn', rfl⟩,
    (accepted_of_matches hmatches).trans haccepted, hmatches⟩

/-- A chain of two rules. Only with both in state 0 there is a transition on `b` from there. -/
theorem compile_full_simulates_chain :
    (Grammar.parse "S -> a A A -> b").1.productions ≠ [] ∧
      ∃ warnings warnings' c c', compile false "S -> a A A -> b" = (warnings, .ok c) ∧
        compile true "S -> a A A -> b" = (warnings', .ok c') ∧ c'.Simulates c ∧
        c'.table.hasConflict = false ∧ c.automaton.goto 0 "b" = none ∧
        c'.automaton.goto 0 "b" = some 2 ∧
        ∃ trace, c.simulate 5 "a b" = .ok trace ∧ trace.accepted = true := by
  have hne : (Grammar.parse "S -> a A A -> b").1.productions ≠ [] := by
    decide +kernel
  obtain ⟨warnings, warnings', c, c', hc, hc', h⟩ := compile_full_simulates hne
  have hplain : (compile false "S -> a A A -> b").2.toOption.map (fun c =>
      (c.automaton.goto 0 "b", (c.simulate 5 "a b").toOption.map Trace.accepted)) =
      some (none, some true) := by
    decide +kernel
  have hfull : (compile true "S -> a A A -> b").2.toOption.map (fun c =>
      (c.table.hasConflict, c.automaton.goto 0 "b")) = some (false, some 2) := by
    decide +kernel
  rw [hc] at hplain
  rw [hc'] at hfull
  obtain ⟨hgoto, haccepted⟩ := Prod.mk.inj (Option.some.inj hplain)
  obtain ⟨hfree, hgoto'⟩ := Prod.mk.inj (Option.some.inj hfull)
  exact ⟨hne, warnings, warnings', c, c', hc, hc', h, hfree, hgoto, hgoto',
    exists_of_toOption haccepted⟩

end ShiftReduce
