/-
The moves of single items.

An item moves without a symbol to the productions of the non-terminal behind its dot, and on the
symbol behind its dot to the item with the dot one symbol further. This is a nondeterministic
automaton; the automaton of item sets is to be its deterministic form.

* `itemNfa` — the automaton of single items, started from the start item or from all productions;
* `eval_induction` — what its moves keep holds of every item that it reaches;
* `mem_eval_full` — what is reached from the start item is reached from all productions;
* `eval_suffix` — an item is reached with the symbols before its dot read last;
* `exists_before` — productions are opened behind a dot;
* `eval_of_start` — the items of the start production are reached only from the beginning on.
-/
import Mathlib.Computability.EpsilonNFA
import ShiftReduce.Proofs.Automaton.Items

namespace ShiftReduce

/-- The automaton of single items. With `full` it starts from every production with the dot in
front, and otherwise from the start item. -/
def itemNfa (g : Grammar) (a : Augmented) (full : Bool) : εNFA Symbol Item where
  step i
    | none => {j | ∃ n ∈ g.nonterminals, i.next? = some n ∧ j ∈ a.leadingItems ∧ j.rule.name = n}
    | some s => {j | i.next? = some s ∧ j = i.moved}
  start := if full then {i | i ∈ a.leadingItems} else {a.startItem}
  accept := {a.acceptItem}

variable {g : Grammar} {a : Augmented} {full : Bool} {w : List Symbol} {i j : Item} {s : Symbol}

theorem mem_start_iff :
    i ∈ (itemNfa g a full).start ↔ if full then i ∈ a.leadingItems else i = a.startItem := by
  cases full <;> rfl

theorem mem_leadingItems_of_mem_start (h : i ∈ (itemNfa g a full).start) : i ∈ a.leadingItems := by
  rw [mem_start_iff] at h
  split at h
  · exact h
  · exact h ▸ a.startItem_mem_leadingItems

theorem startItem_mem_start : a.startItem ∈ (itemNfa g a full).start := by
  rw [mem_start_iff]
  split
  · exact a.startItem_mem_leadingItems
  · rfl

/-! ### Reaching items -/

theorem mem_eval_of_mem_start (h : i ∈ (itemNfa g a full).start) : i ∈ (itemNfa g a full).eval [] :=
  εNFA.εClosure.base i h

theorem mem_eval_open {n : Symbol} (h : i ∈ (itemNfa g a full).eval w) (hn : n ∈ g.nonterminals)
    (hnext : i.next? = some n) (hj : j ∈ a.leadingItems) (hname : j.rule.name = n) :
    j ∈ (itemNfa g a full).eval w := by
  -- Whatever was read last, a closure comes after it, and this takes one more step.
  have hstep : j ∈ (itemNfa g a full).step i none := ⟨n, hn, hnext, hj, hname⟩
  induction w using List.reverseRecOn with
  | nil => exact εNFA.εClosure.step i j hstep h
  | append_singleton w s _ =>
    rw [εNFA.eval_append_singleton, εNFA.mem_stepSet_iff] at h ⊢
    obtain ⟨k, hk, hik⟩ := h
    exact ⟨k, hk, εNFA.εClosure.step i j hstep hik⟩

theorem mem_eval_read (h : i ∈ (itemNfa g a full).eval w) (hnext : i.next? = some s) :
    i.moved ∈ (itemNfa g a full).eval (w ++ [s]) := by
  rw [εNFA.eval_append_singleton, εNFA.mem_stepSet_iff]
  exact ⟨i, h, εNFA.εClosure.base _ ⟨hnext, rfl⟩⟩

/-- What the moves keep holds of every item that is reached. -/
theorem eval_induction {P : List Symbol → Item → Prop}
    (start : ∀ i ∈ (itemNfa g a full).start, P [] i)
    (opens : ∀ w i j n, i ∈ (itemNfa g a full).eval w → P w i → n ∈ g.nonterminals →
      i.next? = some n → j ∈ a.leadingItems → j.rule.name = n → P w j)
    (read : ∀ w i s, i ∈ (itemNfa g a full).eval w → P w i → i.next? = some s →
      P (w ++ [s]) i.moved)
    (h : i ∈ (itemNfa g a full).eval w) : P w i := by
  induction w using List.reverseRecOn generalizing i with
  | nil =>
    induction h with
    | base i hi => exact start i hi
    | step i j hij hi ih =>
      obtain ⟨n, hn, hnext, hj, hname⟩ := hij
      exact opens [] i j n hi ih hn hnext hj hname
  | append_singleton w s ihw =>
    rw [εNFA.eval_append_singleton, εNFA.mem_stepSet_iff] at h
    obtain ⟨k, hk, h⟩ := h
    induction h with
    | base i hi =>
      obtain ⟨hnext, rfl⟩ := hi
      exact read w k s hk (ihw hk) hnext
    | step i j hij hi ih =>
      obtain ⟨n, hn, hnext, hj, hname⟩ := hij
      have hi' : i ∈ (itemNfa g a full).eval (w ++ [s]) := by
        rw [εNFA.eval_append_singleton, εNFA.mem_stepSet_iff]
        exact ⟨k, hk, hi⟩
      exact opens (w ++ [s]) i j n hi' ih hn hnext hj hname

theorem valid_of_mem_eval (h : i ∈ (itemNfa g a full).eval w) : a.Valid i :=
  eval_induction (P := fun _ i => a.Valid i)
    (fun _ hi => .of_mem_leadingItems (mem_leadingItems_of_mem_start hi))
    (fun _ _ _ _ _ _ _ _ hj _ => .of_mem_leadingItems hj)
    (fun _ _ _ _ hi hnext => hi.moved hnext) h

/-- Started from every production, the automaton reaches all that it reaches otherwise. -/
theorem mem_eval_full (h : i ∈ (itemNfa g a full).eval w) : i ∈ (itemNfa g a true).eval w :=
  eval_induction (P := fun w i => i ∈ (itemNfa g a true).eval w)
    (fun _ hi => mem_eval_of_mem_start (mem_leadingItems_of_mem_start hi))
    (fun _ _ _ _ _ hi hn hnext hj hname => mem_eval_open hi hn hnext hj hname)
    (fun _ _ _ _ hi hnext => mem_eval_read hi hnext) h

/-- An item is reached with the symbols before its dot read last, and before them the item with
the dot in front is reached. -/
theorem eval_suffix (h : i ∈ (itemNfa g a full).eval w) :
    ∃ v, w = v ++ i.rule.rhs.take i.dot ∧ { i with dot := 0 } ∈ (itemNfa g a full).eval v := by
  refine eval_induction (P := fun w i => ∃ v, w = v ++ i.rule.rhs.take i.dot ∧
    { i with dot := 0 } ∈ (itemNfa g a full).eval v) ?_ ?_ ?_ h
  · intro i hi
    have hdot := (Augmented.mem_leadingItems_iff.mp (mem_leadingItems_of_mem_start hi)).2
    refine ⟨[], by rw [hdot]; rfl, ?_⟩
    rw [← hdot]
    exact mem_eval_of_mem_start hi
  · intro w i j n hi _ hn hnext hj hname
    have hdot := (Augmented.mem_leadingItems_iff.mp hj).2
    refine ⟨w, by rw [hdot]; simp, ?_⟩
    rw [← hdot]
    exact mem_eval_open hi hn hnext hj hname
  · rintro w i s _ ⟨v, rfl, hv⟩ hnext
    exact ⟨v, by rw [List.append_assoc, ← Item.take_of_next? hnext], hv⟩

/-- An item is reached with all symbols behind its dot that are read. -/
theorem mem_eval_read_all {xs ys : List Symbol} (h : i ∈ (itemNfa g a full).eval w)
    (hrest : i.rule.rhs.drop i.dot = xs ++ ys) :
    { i with dot := i.dot + xs.length } ∈ (itemNfa g a full).eval (w ++ xs) := by
  induction xs generalizing i w with
  | nil =>
    rw [List.append_nil]
    exact h
  | cons s xs ih =>
    have hnext : i.next? = some s := Item.next?_of_drop hrest
    rw [Item.drop_of_next? hnext, List.cons_append] at hrest
    have hmoved := ih (mem_eval_read h hnext) (List.cons.inj hrest).2
    rw [List.append_assoc] at hmoved
    rw [List.length_cons, Nat.add_comm xs.length, ← Nat.add_assoc]
    exact hmoved

/-- A production with a non-terminal for its name is not the start production. -/
theorem production_ne_zero (hg : g.Consistent) (hi : a.Valid i)
    (hname : i.rule.name ∈ g.nonterminals) : i.production ≠ 0 := by
  intro hzero
  have hrule := hi.rule_eq
  rw [hzero] at hrule
  have hstart : i.rule.name = a.start := congrArg Rule.name (Option.some.inj hrule).symm
  have hupper := (hg.mem_nonterminals_iff.mp hname).1
  rw [hstart, a.start_isNonterminal] at hupper
  cases hupper

/-- The items of the start production are reached only by its own symbols: no item moves to it. -/
theorem eval_of_start (hg : g.Consistent) (h : i ∈ (itemNfa g a full).eval w)
    (hzero : i.production = 0) : w = i.rule.rhs.take i.dot := by
  revert hzero
  refine eval_induction (P := fun w i => i.production = 0 → w = i.rule.rhs.take i.dot) ?_ ?_ ?_ h
  · intro i hi _
    rw [(Augmented.mem_leadingItems_iff.mp (mem_leadingItems_of_mem_start hi)).2]
    rfl
  · intro w i j n _ _ hn _ hj hname hzero
    exact absurd hzero (production_ne_zero hg (.of_mem_leadingItems hj) (hname ▸ hn))
  · intro w i s _ ih hnext hzero
    rw [Item.take_of_next? hnext, ← ih hzero]

/-- Items of one rule with the dot in the same place are reached together. -/
theorem mem_eval_of_rule_eq (hg : g.Consistent) (h : i ∈ (itemNfa g a full).eval w)
    (hname : i.rule.name ∈ g.nonterminals) (hj : a.Valid j) (hrule : j.rule = i.rule)
    (hdot : j.dot = i.dot) : j ∈ (itemNfa g a full).eval w := by
  refine eval_induction (P := fun w i => i.rule.name ∈ g.nonterminals → ∀ j, a.Valid j →
    j.rule = i.rule → j.dot = i.dot → j ∈ (itemNfa g a full).eval w)
    ?_ ?_ ?_ h hname j hj hrule hdot
  -- The statement is about all items of the rule, so that the dot moves in all of them at once.
  all_goals clear hname hj hrule hdot
  · intro i hi hname j hj hrule hdot
    obtain ⟨hi', hzero⟩ := Augmented.mem_leadingItems_iff.mp (mem_leadingItems_of_mem_start hi)
    have hleading := Augmented.mem_leadingItems_iff.mpr ⟨hj.rule_eq, hdot.trans hzero⟩
    rw [mem_start_iff] at hi
    split at hi
    · exact mem_eval_of_mem_start (mem_start_iff.mpr (by rw [if_pos ‹_›]; exact hleading))
    · exact absurd (congrArg Item.production hi) (production_ne_zero hg ⟨hi', by omega⟩ hname)
  · intro w i k n hi _ hn hnext hk hname _ j hj hrule hdot
    have hleading := Augmented.mem_leadingItems_iff.mpr
      ⟨hj.rule_eq, hdot.trans (Augmented.mem_leadingItems_iff.mp hk).2⟩
    exact mem_eval_open hi hn hnext hleading (hrule ▸ hname)
  · intro w i s _ ih hnext hname j hj hrule hdot
    have hj' : { j with dot := i.dot } ∈ (itemNfa g a full).eval w :=
      ih hname _ ⟨hj.rule_eq, (Item.dot_lt_of_next? hnext).le.trans_eq (hrule ▸ rfl)⟩ hrule rfl
    have hnext' : Item.next? { j with dot := i.dot } = some s := by
      rw [← hnext]
      exact congrArg (fun r : Rule => r.rhs[i.dot]?) hrule
    have hmoved := mem_eval_read hj' hnext'
    have heq : Item.moved { j with dot := i.dot } = j := by
      rw [Item.moved, ← show j.dot = i.dot + 1 from hdot]
    exact heq ▸ hmoved

/-- The start production is complete only behind the start symbol. -/
theorem eval_acceptItem (hg : g.Consistent) (h : a.acceptItem ∈ (itemNfa g a full).eval w) :
    w = [a.goal] := eval_of_start hg h rfl

theorem acceptItem_mem_eval : a.acceptItem ∈ (itemNfa g a full).eval [a.goal] :=
  mem_eval_read (mem_eval_of_mem_start startItem_mem_start) rfl

/-- With the start item as the only beginning, a production is opened only behind a dot. -/
theorem exists_before (h : i ∈ (itemNfa g a false).eval w) (hdot : i.dot = 0)
    (hzero : i.production ≠ 0) :
    ∃ j ∈ (itemNfa g a false).eval w, j.next? = some i.rule.name := by
  revert hdot hzero
  refine eval_induction (P := fun w i => i.dot = 0 → i.production ≠ 0 →
    ∃ j ∈ (itemNfa g a false).eval w, j.next? = some i.rule.name) ?_ ?_ ?_ h
  · intro i hi _ hzero
    obtain rfl : i = a.startItem := mem_start_iff.mp hi
    exact absurd rfl hzero
  · intro w i j n hi _ _ hnext _ hname _ _
    exact ⟨i, hi, hname ▸ hnext⟩
  · intro w i s _ _ _ hdot _
    exact absurd hdot (Nat.succ_ne_zero i.dot)

end ShiftReduce
