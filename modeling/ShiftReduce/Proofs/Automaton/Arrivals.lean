/-
States remember how they were reached.

The symbols before the dot of an item are those that were met last, on whatever path the state of
the item is reached. Paths of any length lead to a state, and all of them have to agree with all of
its items: so a state is entered on one symbol only, and a complete item finds the right side of its
rule at the end of the path.

* `Automaton.Path.suffix` — items end the paths to their state;
* `Automaton.Coherent.exists_concat` — a transition leaves its symbol before a dot;
* `Automaton.Remembers` — what a state tells of the paths to it;
* `build_remembers` — every grammar that is read from a text and has productions has an automaton
  whose states do.
-/
import ShiftReduce.Proofs.Automaton.Determinisation

namespace ShiftReduce

namespace Automaton

variable {g : Grammar} {a : Augmented} {full : Bool} {m : Automaton}

/-- The symbols before the dot of an item are the last ones of every path to its state. -/
theorem Path.suffix (h : Coherent g a full m) {ts : List Transition} {n : Nat} (hp : m.Path ts n)
    {items : List Item} (hn : m.states[n]? = some items) {i : Item} (hi : i ∈ items) :
    i.rule.rhs.take i.dot <:+ spelling ts := by
  obtain ⟨items', hitems', hmem⟩ := hp.mem_iff h
  obtain rfl := Option.some.inj (hn.symm.trans hitems')
  obtain ⟨v, hv, _⟩ := eval_suffix ((hmem i).mp hi)
  exact hv ▸ List.suffix_append v _

/-- The state that a transition leads to has an item whose dot is right behind the symbol. -/
theorem Coherent.exists_concat (h : Coherent g a full m) {t : Transition}
    (ht : t ∈ m.transitions) :
    ∃ items i xs, m.states[t.target]? = some items ∧ i ∈ items ∧
      i.rule.rhs.take i.dot = xs ++ [t.symbol] := by
  obtain ⟨items, items', _, hitems', ⟨i, hi, hnext⟩, hstep⟩ := h.moves t ht
  refine ⟨items', i.moved, _, hitems', (hstep i.moved).mpr ?_, Item.take_of_next? hnext⟩
  rw [εNFA.mem_stepSet_iff]
  exact ⟨i, hi, εNFA.εClosure.base _ ⟨hnext, rfl⟩⟩

theorem Built.exists_path_source (h : Built g a full m) {t : Transition} (ht : t ∈ m.transitions) :
    ∃ ts, m.Path ts t.source := by
  obtain ⟨items, _, hitems, _⟩ := h.moves t ht
  exact h.reached t.source (List.getElem?_eq_some_iff.mp hitems).1

/-- A state is entered on one symbol only. -/
theorem Built.symbol_eq_of_target_eq (h : Built g a full m) {t t' : Transition}
    (ht : t ∈ m.transitions) (ht' : t' ∈ m.transitions) (heq : t.target = t'.target) :
    t.symbol = t'.symbol := by
  obtain ⟨items, i, xs, hitems, hi, hbefore⟩ := h.exists_concat ht
  obtain ⟨ts', hp'⟩ := h.exists_path_source ht'
  -- The item that the one transition leaves is at the end of a path that ends in the other.
  have hsuffix := (hp'.move ht').suffix h.toCoherent (heq ▸ hitems) hi
  rw [hbefore, spelling_concat] at hsuffix
  obtain ⟨ys, hys⟩ := hsuffix
  rw [← List.append_assoc] at hys
  exact (List.cons.inj (List.append_inj' hys rfl).2).1

/-- State 0 is entered by no transition: nothing was read when it is reached first. -/
theorem Coherent.target_ne_zero (h : Coherent g a full m) {t : Transition}
    (ht : t ∈ m.transitions) : t.target ≠ 0 := by
  intro hzero
  obtain ⟨items, i, xs, hitems, hi, hbefore⟩ := h.exists_concat ht
  have hsuffix := Path.start.suffix h (hzero ▸ hitems) hi
  rw [hbefore] at hsuffix
  exact List.append_ne_nil_of_right_ne_nil xs (List.cons_ne_nil _ _) (List.suffix_nil.mp hsuffix)

/-- Every other state has an item whose dot is not in front. -/
theorem Built.exists_dot_ne_zero (h : Built g a full m) {n : Nat} {items : List Item}
    (hn : m.states[n]? = some items) (hzero : n ≠ 0) : ∃ i ∈ items, i.dot ≠ 0 := by
  obtain ⟨ts, hp⟩ := h.reached n (List.getElem?_eq_some_iff.mp hn).1
  cases hp with
  | start => exact absurd rfl hzero
  | @move ts t _ ht =>
    obtain ⟨items', i, xs, hitems', hi, hbefore⟩ := h.exists_concat ht
    obtain rfl := Option.some.inj (hn.symm.trans hitems')
    refine ⟨i, hi, fun hdot => ?_⟩
    rw [hdot, List.take_zero] at hbefore
    exact List.append_ne_nil_of_right_ne_nil xs (List.cons_ne_nil _ _) hbefore.symm

/-- Automata whose states tell how they were reached. -/
structure Remembers (a : Augmented) (m : Automaton) : Prop where
  reachable : ∀ n < m.states.length, ∃ ts, m.Path ts n
  /-- Every path leads to a state, and ends in the symbols before the dot of each of its items. -/
  suffix : ∀ ts n, m.Path ts n → ∃ items, m.states[n]? = some items ∧
    ∀ i ∈ items, i.rule.rhs.take i.dot <:+ spelling ts
  symbol_eq : ∀ t ∈ m.transitions, ∀ t' ∈ m.transitions, t.target = t'.target →
    t.symbol = t'.symbol
  target_ne_zero : ∀ t ∈ m.transitions, t.target ≠ 0
  exists_dot_ne_zero : ∀ n items, m.states[n]? = some items → n ≠ 0 → ∃ i ∈ items, i.dot ≠ 0
  /-- The start production is complete only behind the start symbol. -/
  accept_iff : ∀ n items, m.states[n]? = some items →
    (a.acceptItem ∈ items ↔ m.goto 0 a.goal = some n)

theorem Built.remembers (hg : g.Consistent) (h : Built g a full m) : Remembers a m where
  reachable := h.reached
  suffix ts n hp := by
    obtain ⟨items, hitems, _⟩ := hp.mem_iff h.toCoherent
    exact ⟨items, hitems, fun i hi => hp.suffix h.toCoherent hitems hi⟩
  symbol_eq _ ht _ ht' heq := h.symbol_eq_of_target_eq ht ht' heq
  target_ne_zero _ ht := h.target_ne_zero ht
  exists_dot_ne_zero _ _ hn hzero := h.exists_dot_ne_zero hn hzero
  accept_iff n items hn := by
    obtain ⟨f, _, hgoto, hfinal⟩ := h.finalState_eq hg
    rw [hfinal n items hn, hgoto, Option.some_inj, eq_comm]

end Automaton

/-- The states of every grammar that is read from a text and has productions tell how they were
reached, whichever state 0 the automaton begins with. -/
theorem build_remembers (text : String) (full : Bool)
    (hne : (Grammar.parse text).1.productions ≠ []) :
    ∃ a m, Augmented.ofGrammar (Grammar.parse text).1 = .ok a ∧
      Automaton.build (Grammar.parse text).1 a full = .ok m ∧ m.Remembers a := by
  have hg := Grammar.parse_consistent text
  obtain ⟨s, hs⟩ := hg.exists_start_of_ne_nil hne
  have ha : Augmented.ofGrammar (Grammar.parse text).1 = .ok ⟨s, (Grammar.parse text).1.rules⟩ :=
    Augmented.ofGrammar_eq_ok_iff.mpr ⟨hs, rfl⟩
  obtain ⟨m, hm, hbuilt⟩ := Automaton.build_ok hg ha full
  exact ⟨_, m, ha, hm, hbuilt.remembers hg⟩

/-- State 1 is entered on `a` from three states, of which it is one itself, and state 2 on `b` from
the same three. -/
theorem build_remembers_pairs :
    (Grammar.parse "S -> A A A -> a A | b").1.productions ≠ [] ∧
      ∃ a m, Augmented.ofGrammar (Grammar.parse "S -> A A A -> a A | b").1 = .ok a ∧
        Automaton.build (Grammar.parse "S -> A A A -> a A | b").1 a false = .ok m ∧
        m.Remembers a ∧
        m.transitions = [⟨0, "a", 1⟩, ⟨0, "b", 2⟩, ⟨0, "S", 3⟩, ⟨0, "A", 4⟩, ⟨1, "a", 1⟩,
          ⟨1, "b", 2⟩, ⟨1, "A", 5⟩, ⟨4, "a", 1⟩, ⟨4, "b", 2⟩, ⟨4, "A", 6⟩] := by
  have hne : (Grammar.parse "S -> A A A -> a A | b").1.productions ≠ [] := by decide +kernel
  have htransitions : (Augmented.ofGrammar (Grammar.parse "S -> A A A -> a A | b").1).toOption.bind
      (fun a => (Automaton.build (Grammar.parse "S -> A A A -> a A | b").1 a false).toOption.map
        Automaton.transitions) =
      some [⟨0, "a", 1⟩, ⟨0, "b", 2⟩, ⟨0, "S", 3⟩, ⟨0, "A", 4⟩, ⟨1, "a", 1⟩,
        ⟨1, "b", 2⟩, ⟨1, "A", 5⟩, ⟨4, "a", 1⟩, ⟨4, "b", 2⟩, ⟨4, "A", 6⟩] := by
    decide +kernel
  obtain ⟨a, m, ha, hm, hremembers⟩ := build_remembers _ false hne
  rw [ha] at htransitions
  change (Automaton.build _ a false).toOption.map Automaton.transitions = _ at htransitions
  rw [hm] at htransitions
  exact ⟨hne, a, m, ha, hm, hremembers, Option.some.inj htransitions⟩

end ShiftReduce
