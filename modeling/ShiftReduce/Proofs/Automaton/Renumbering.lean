/-
The automata of grammars whose rules have other numbers.

Items keep their rules and their dots and get the new numbers of their productions. What is reached
by the items of one grammar is, with these numbers, reached by those of another that has all rules
of the names that are met from the start symbol. If this holds in both directions then the automata
differ in the numbers of their states and productions only.

* `Item.renumber` — an item with the new number of its production;
* `Grammar.Keeps.renumber_mem_leadingItems`, `Grammar.Keeps.renumber_mem_eval` — items that are
  reached;
* `Grammar.Keeps.carries` — so items have counterparts in the other grammar;
* `Automaton.Renumbered` — automata that differ in numbers only;
* `Grammar.Keeps.exists_renumbered` — the automata of grammars that keep each other's rules do;
* `Grammar.Reordered.exists_renumbered` — and so do those of reordered grammars.
-/
import ShiftReduce.Proofs.Automaton.Pairing
import ShiftReduce.Proofs.Grammar.Reordering

namespace ShiftReduce

/-! ### Items -/

namespace Item

/-- An item with the new number of its production; the start production stays the first. -/
def renumber (σ : Equiv.Perm Nat) : Equiv.Perm Item where
  toFun i := { i with production := behindFirst σ i.production }
  invFun i := { i with production := behindFirst σ.symm i.production }
  left_inv i := by simp [← behindFirst_symm]
  right_inv i := by simp [← behindFirst_symm]

theorem symm_renumber (σ : Equiv.Perm Nat) : (renumber σ).symm = renumber σ.symm := rfl

/-- Only the start production has the first number. -/
theorem production_renumber_eq_zero_iff {σ : Equiv.Perm Nat} {i : Item} :
    (renumber σ i).production = 0 ↔ i.production = 0 := by
  have hzero : behindFirst σ 0 = 0 := rfl
  show behindFirst σ i.production = 0 ↔ _
  conv_lhs => rw [← hzero]
  exact (behindFirst σ).apply_eq_iff_eq

end Item

/-! ### Reaching items -/

namespace Grammar.Keeps

variable {σ : Equiv.Perm Nat} {K : Symbol → Prop} {g g' : Grammar} {a a' : Augmented} {full : Bool}
  {w : List Symbol} {i : Item}

theorem goal_eq (h : Keeps σ K g g') (ha : Augmented.ofGrammar g = .ok a)
    (ha' : Augmented.ofGrammar g' = .ok a') : a'.goal = a.goal := by
  have hstart := (Augmented.ofGrammar_eq_ok_iff.mp ha).1
  have hstart' := (Augmented.ofGrammar_eq_ok_iff.mp ha').1
  exact Option.some.inj (hstart'.symm.trans (h.start_eq.trans hstart))

theorem renumber_startItem (h : Keeps σ K g g') (ha : Augmented.ofGrammar g = .ok a)
    (ha' : Augmented.ofGrammar g' = .ok a') : Item.renumber σ a.startItem = a'.startItem := by
  rw [Augmented.startItem, Augmented.startItem, Augmented.start, Augmented.start, h.goal_eq ha ha']
  rfl

theorem renumber_mem_leadingItems (h : Keeps σ K g g') (ha : Augmented.ofGrammar g = .ok a)
    (ha' : Augmented.ofGrammar g' = .ok a') (hi : i ∈ a.leadingItems)
    (hname : i.production ≠ 0 → K i.rule.name) : Item.renumber σ i ∈ a'.leadingItems := by
  by_cases hzero : i.production = 0
  · rw [Augmented.eq_startItem hi hzero, h.renumber_startItem ha ha']
    exact a'.startItem_mem_leadingItems
  · obtain ⟨hrule, hdot⟩ := Augmented.mem_leadingItems_iff.mp hi
    obtain ⟨n, hn⟩ := Nat.exists_eq_succ_of_ne_zero hzero
    rw [hn, Nat.succ_eq_add_one, a.getElem?_allRules_succ,
      (Augmented.ofGrammar_eq_ok_iff.mp ha).2] at hrule
    have hrule' := h.getElem?_eq n i.rule hrule (hname hzero)
    rw [← (Augmented.ofGrammar_eq_ok_iff.mp ha').2, ← a'.getElem?_allRules_succ] at hrule'
    refine Augmented.mem_leadingItems_iff.mpr ⟨?_, hdot⟩
    have hplace : (Item.renumber σ i).production = σ n + 1 := congrArg (behindFirst σ) hn
    rw [hplace]
    exact hrule'

/-- Items are reached with the same symbols. If state 0 holds every production, all symbols have to
be in question. -/
theorem renumber_mem_eval (h : Keeps σ K g g') (hg : g.Consistent) (hg' : g'.Consistent)
    (ha : Augmented.ofGrammar g = .ok a) (ha' : Augmented.ofGrammar g' = .ok a')
    (hfull : full = true → ∀ s, K s) (hi : i ∈ (itemNfa g a full).eval w) :
    Item.renumber σ i ∈ (itemNfa g' a' full).eval w := by
  -- An item is reached with a right side all of whose symbols are in question.
  refine (eval_induction (P := fun w i => Item.renumber σ i ∈ (itemNfa g' a' full).eval w ∧
    ∀ x ∈ i.rule.rhs, K x) ?_ ?_ ?_ hi).1
  · intro i hi
    rw [mem_start_iff] at hi
    split at hi
    · next hall =>
      refine ⟨mem_eval_of_mem_start (mem_start_iff.mpr ?_), fun x _ => hfull hall x⟩
      rw [if_pos hall]
      exact h.renumber_mem_leadingItems ha ha' hi fun _ => hfull hall _
    · next hnone =>
      refine ⟨mem_eval_of_mem_start (mem_start_iff.mpr ?_), fun x hx => ?_⟩
      · rw [if_neg hnone, hi]
        exact h.renumber_startItem ha ha'
      · rw [hi] at hx
        obtain rfl : x = a.goal := List.mem_singleton.mp hx
        exact h.start a.goal (Augmented.ofGrammar_eq_ok_iff.mp ha).1
  · rintro w i j n _ ⟨ih, hrhs⟩ hn hnext hj rfl
    have hname : K j.rule.name := hrhs _ (Item.mem_rhs_of_next? hnext)
    have hvalid := Augmented.Valid.of_mem_leadingItems hj
    have hzero := production_ne_zero hg hvalid hn
    have hj' := h.renumber_mem_leadingItems ha ha' hj fun _ => hname
    obtain ⟨_, p, _, hp, hrule⟩ := hvalid.exists_production ha hzero
    obtain ⟨_, p', _, hp', hrule'⟩ :=
      (Augmented.Valid.of_mem_leadingItems hj').exists_production ha'
        (mt Item.production_renumber_eq_zero_iff.mp hzero)
    -- The name has a rule in the other grammar, so it is a non-terminal there.
    have hn' : j.rule.name ∈ g'.nonterminals := by
      rw [show j.rule.name = p'.name from (congrArg Rule.name hrule').symm]
      exact hg'.name_mem_nonterminals (List.mem_of_getElem? hp')
    refine ⟨mem_eval_open ih hn' hnext hj' rfl, ?_⟩
    exact h.inherit j.rule (hrule ▸ List.mem_map_of_mem (List.mem_of_getElem? hp)) hname
  · rintro w i s _ ⟨ih, hrhs⟩ hnext
    exact ⟨mem_eval_read ih hnext, hrhs⟩

theorem carries (h : Keeps σ K g g') (hg : g.Consistent) (hg' : g'.Consistent)
    (ha : Augmented.ofGrammar g = .ok a) (ha' : Augmented.ofGrammar g' = .ok a')
    (hfull : full = true → ∀ s, K s) :
    Carries (Item.renumber σ) (itemNfa g a full) (itemNfa g' a' full) :=
  ⟨h.renumber_mem_eval hg hg' ha ha' hfull, fun _ => rfl⟩

end Grammar.Keeps

/-! ### Automata -/

/-- Automata that differ in numbers only: `φ` takes the numbers of the states of one to those of
the other, and `σ` the numbers of the productions. -/
structure Automaton.Renumbered (σ φ : Equiv.Perm Nat) (m m' : Automaton) : Prop where
  length_states : m'.states.length = m.states.length
  /-- Numbers of states are taken to numbers of states. -/
  lt_iff : ∀ n, φ n < m.states.length ↔ n < m.states.length
  /-- State 0 stays. -/
  zero : φ 0 = 0
  states : ∀ n items, m.states[n]? = some items → ∃ items', m'.states[φ n]? = some items' ∧
    items'.Perm (items.map (Item.renumber σ))
  goto : ∀ n s, m'.goto (φ n) s = (m.goto n s).map φ
  finalState : m'.finalState = m.finalState.map φ

theorem Automaton.Built.finalState_eq_goto {g : Grammar} {a : Augmented} {full : Bool}
    {m : Automaton} (hg : g.Consistent) (h : m.Built g a full) :
    m.finalState = m.goto 0 a.goal := by
  obtain ⟨f, hfinal, hgoto, _⟩ := h.finalState_eq hg
  rw [hfinal, hgoto]

section Grammars

variable {σ : Equiv.Perm Nat} {g g' : Grammar} {a a' : Augmented} {full : Bool}
  {m m' : Automaton}

/-- The automata of grammars that keep each other's rules differ in numbers only. -/
theorem Grammar.Keeps.exists_renumbered {K K' : Symbol → Prop} (h : Keeps σ K g g')
    (h' : Keeps σ.symm K' g' g) (hfull : full = true → ∀ s, K s ∧ K' s) (hg : g.Consistent)
    (hg' : g'.Consistent) (ha : Augmented.ofGrammar g = .ok a)
    (ha' : Augmented.ofGrammar g' = .ok a') (hm : m.Built g a full) (hm' : m'.Built g' a' full) :
    ∃ φ, m.Renumbered σ φ m' := by
  have hforth : Carries (Item.renumber σ) (itemNfa g a full) (itemNfa g' a' full) :=
    h.carries hg hg' ha ha' fun hall s => (hfull hall s).1
  have hback : Carries (Item.renumber σ).symm (itemNfa g' a' full) (itemNfa g a full) :=
    Item.symm_renumber σ ▸ h'.carries hg' hg ha' ha fun hall s => (hfull hall s).2
  obtain ⟨hlength, φ, hbelow, hφ⟩ := hm.exists_renumbering hforth hback hm'
  have hstart : φ 0 = 0 :=
    (hφ 0 hm.length_pos).unique hforth hback .start hm.toCoherent hm'.toCoherent
  have hgoto : ∀ n s, m'.goto (φ n) s = (m.goto n s).map φ :=
    hm.goto_map hforth hback hm' (fun n hn => (hbelow n).mp (hlength ▸ hn)) hφ
  refine ⟨φ, hlength, hbelow, hstart, fun n items hn => ?_, hgoto, ?_⟩
  · exact (hφ n (List.getElem?_eq_some_iff.mp hn).1).exists_perm hforth hback hm hm' hn
  · rw [hm'.finalState_eq_goto hg', hm.finalState_eq_goto hg, h.goal_eq ha ha', ← hgoto, hstart]

/-- The automata of reordered grammars differ in numbers only. -/
theorem Grammar.Reordered.exists_renumbered (h : Reordered σ g g') (hg : g.Consistent)
    (hg' : g'.Consistent) (ha : Augmented.ofGrammar g = .ok a)
    (ha' : Augmented.ofGrammar g' = .ok a') (hm : m.Built g a full) (hm' : m'.Built g' a' full) :
    ∃ φ, m.Renumbered σ φ m' :=
  h.keeps.exists_renumbered h.symm.keeps (fun _ _ => ⟨trivial, trivial⟩) hg hg' ha ha' hm hm'

end Grammars

end ShiftReduce
