/-
The tables of grammars with the same rules in another order.

The cells hold the same actions with the new numbers, perhaps in another order, and the cells in
conflict are the same.

* `Action.renumber` — an action with the new numbers of its state or its production;
* `moveActions_renumber`, `reductionOn_renumber` — the actions of transitions and of items;
* `Table.Renumbered` — tables that differ in numbers and in the order within their cells only;
* `Tabulated.renumbered` — the tables of the two grammars do.
-/
import ShiftReduce.Proofs.Automaton.Renumbering
import ShiftReduce.Proofs.Table.Tabulation

namespace ShiftReduce

variable {σ φ : Equiv.Perm Nat} {g g' : Grammar} {m m' : Automaton} {n : Nat} {s : Symbol}

/-! ### Actions -/

/-- An action with the new number of its state or its production. -/
def Action.renumber (σ φ : Equiv.Perm Nat) : Action Nat → Action Nat
  | shift state => .shift (φ state)
  | goto state => .goto (φ state)
  | reduce rule => .reduce (σ rule)
  | accept => .accept

theorem Automaton.Renumbered.finalState_eq_some_iff (hm : m.Renumbered σ φ m') :
    m'.finalState = some (φ n) ↔ m.finalState = some n := by
  rw [hm.finalState, Option.map_eq_some_iff]
  constructor
  · rintro ⟨f, hf, heq⟩
    rw [hf, φ.injective heq]
  · exact fun hf => ⟨n, hf, rfl⟩

theorem moveActions_renumber (hm : m.Renumbered σ φ m') (hs : s ∈ g'.terminals ↔ s ∈ g.terminals) :
    moveActions g' m' (φ n) s = (moveActions g m n s).map (Action.renumber σ φ) := by
  unfold moveActions
  by_cases hmark : s = Symbol.endMark
  · rw [if_pos hmark, if_pos hmark]
    simp only [hm.finalState_eq_some_iff]
    split <;> rfl
  · rw [if_neg hmark, if_neg hmark, hm.goto]
    cases m.goto n s with
    | none => rfl
    | some k =>
      simp only [Option.map_some, hs]
      split <;> rfl

/-- There are as many actions even if it is not known which of the symbols are terminals. -/
theorem length_moveActions_renumber (hm : m.Renumbered σ φ m') :
    (moveActions g' m' (φ n) s).length = (moveActions g m n s).length := by
  unfold moveActions
  by_cases hmark : s = Symbol.endMark
  · rw [if_pos hmark, if_pos hmark]
    simp only [hm.finalState_eq_some_iff]
  · rw [if_neg hmark, if_neg hmark, hm.goto]
    cases m.goto n s <;> rfl

theorem reductionOn_renumber (h : Grammar.Reordered σ g g') (hg : g.Consistent)
    (hg' : g'.Consistent) (hfollow : g.follow.Same g'.follow) (s : Symbol) (i : Item) :
    reductionOn g' s (Item.renumber σ i) = (reductionOn g s i).map (Action.renumber σ φ) := by
  have hmem : s ∈ (g'.follow.find? i.rule.name).getD [] ↔
      s ∈ (g.follow.find? i.rule.name).getD [] := by
    rw [Assoc.mem_getD_find?_iff, Assoc.mem_getD_find?_iff, hfollow.has_iff]
  have hzero : (Item.renumber σ i).production ≠ 0 ↔ i.production ≠ 0 :=
    not_congr Item.production_renumber_eq_zero_iff
  have hreduces : ((Item.renumber σ i).isComplete ∧ (Item.renumber σ i).production ≠ 0 ∧
      s ∈ (g'.follow.find? i.rule.name).getD []) ↔
      i.isComplete ∧ i.production ≠ 0 ∧ s ∈ (g.follow.find? i.rule.name).getD [] :=
    and_congr Iff.rfl (and_congr hzero hmem)
  show (if (Item.renumber σ i).isComplete ∧ (Item.renumber σ i).production ≠ 0 ∧
      s ∈ (g'.follow.find? i.rule.name).getD [] then (g'.ruleNumber? i.rule).map Action.reduce
    else none) = _
  rw [if_congr hreduces rfl rfl, h.ruleNumber?_eq hg hg', reductionOn]
  split
  · rw [Option.map_map, Option.map_map]
    rfl
  · rfl

theorem itemsAt_renumber (hm : m.Renumbered σ φ m') (n : Nat) :
    (itemsAt m' (φ n)).Perm ((itemsAt m n).map (Item.renumber σ)) := by
  cases hn : m.states[n]? with
  | some items =>
    obtain ⟨items', hitems', hperm⟩ := hm.states n items hn
    rw [itemsAt, itemsAt, hn, hitems']
    exact hperm
  | none =>
    have hge : ¬φ n < m'.states.length := by
      rw [hm.length_states, hm.lt_iff]
      exact Nat.not_lt.mpr (List.getElem?_eq_none_iff.mp hn)
    rw [itemsAt, itemsAt, hn, List.getElem?_eq_none_iff.mpr (Nat.not_lt.mp hge)]
    exact .nil

/-! ### Tables -/

theorem Tabulated.settled {a : Augmented} {full : Bool} {t : Table} (h : Tabulated g a full m t)
    (hleast : g.LeastSets) : g.Settled :=
  ⟨h.consistent, h.readable, h.first, h.follow, hleast⟩

/-- Tables that differ only in numbers, in the order within their cells and in the order in which
their conflicts are noted. -/
structure Table.Renumbered (σ φ : Equiv.Perm Nat) (t t' : Table) : Prop where
  actions : ∀ n s, (t'.actions (φ n) s).Perm ((t.actions n s).map (Action.renumber σ φ))
  conflicts : t'.conflicts.Perm (t.conflicts.map fun c => (φ c.1, c.2))
  hasConflict : t'.hasConflict = t.hasConflict

namespace Tabulated

variable {a a' : Augmented} {full : Bool} {t t' : Table}

theorem actions_renumber (ht : Tabulated g a full m t) (ht' : Tabulated g' a' full m' t')
    (h : Grammar.Reordered σ g g') (hfollow : g.follow.Same g'.follow)
    (hm : m.Renumbered σ φ m') (n : Nat) (s : Symbol) :
    (t'.actions (φ n) s).Perm ((t.actions n s).map (Action.renumber σ φ)) := by
  have hterminals := h.mem_terminals_iff ht.consistent ht'.consistent (s := s)
  have hitems : ((itemsAt m' (φ n)).filterMap (reductionOn g' s)).Perm
      (((itemsAt m n).filterMap (reductionOn g s)).map (Action.renumber σ φ)) := by
    refine ((itemsAt_renumber hm n).filterMap _).trans (.of_eq ?_)
    rw [List.filterMap_map, List.map_filterMap]
    exact List.filterMap_congr fun i _ =>
      reductionOn_renumber h ht.consistent ht'.consistent hfollow s i
  rw [ht.cells.2.2, ht'.cells.2.2, List.map_append, moveActions_renumber hm hterminals]
  exact hitems.append_left _

/-- The tables of reordered grammars differ in numbers and orders only. -/
theorem renumbered (ht : Tabulated g a full m t) (ht' : Tabulated g' a' full m' t')
    (h : Grammar.Reordered σ g g') (hfollow : g.follow.Same g'.follow)
    (hm : m.Renumbered σ φ m') : t.Renumbered σ φ t' := by
  have hactions := ht.actions_renumber ht' h hfollow hm
  have hinj : Function.Injective fun c : Nat × Symbol => (φ c.1, c.2) := by
    rintro ⟨n, s⟩ ⟨n', s'⟩ heq
    obtain ⟨hn, hs⟩ := Prod.mk.inj heq
    exact Prod.ext (φ.injective hn) hs
  have hconflicts : t'.conflicts.Perm (t.conflicts.map fun c => (φ c.1, c.2)) := by
    have hnoted := ht.cells.2.1
    have hnoted' := ht'.cells.2.1
    refine (List.perm_ext_iff_of_nodup hnoted'.nodup (hnoted.nodup.map hinj)).mpr ?_
    rintro ⟨n', s⟩
    obtain ⟨n, rfl⟩ := φ.surjective n'
    have hlength : (t'.actions (φ n) s).length = (t.actions n s).length := by
      rw [(hactions n s).length_eq, List.length_map]
    rw [List.mem_map_of_injective hinj (a := (n, s)), hnoted.mem_iff, hnoted'.mem_iff]
    show 2 ≤ (t'.actions (φ n) s).length ↔ 2 ≤ (t.actions n s).length
    rw [hlength]
  refine ⟨hactions, hconflicts, ?_⟩
  rw [Table.hasConflict, Table.hasConflict, hconflicts.isEmpty_eq, List.isEmpty_map]

end Tabulated

end ShiftReduce
