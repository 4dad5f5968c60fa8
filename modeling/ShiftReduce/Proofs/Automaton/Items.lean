/-
Items of an augmented grammar.

* `Augmented.ofGrammar_eq_ok_iff` — which grammar is augmented to which;
* `Augmented.Valid` — items of productions of the augmented grammar, with the dot within them;
* `Augmented.items`, `Augmented.mem_items_iff`, `Augmented.length_items` — all of them in a list;
* `Augmented.mem_leadingItems_iff` — those with the dot in front;
* `Item.moved` — an item with the dot one symbol further.
-/
import Mathlib.Data.List.Nodup
import ShiftReduce.Automaton.Basic
import ShiftReduce.Proofs.Grammar.Representation

namespace ShiftReduce

namespace Augmented

variable {g : Grammar} {a : Augmented}

theorem ofGrammar_eq_ok_iff : ofGrammar g = .ok a ↔ g.start = some a.goal ∧ a.rules = g.rules := by
  unfold ofGrammar
  cases g.start with
  | none =>
    constructor
    · intro h
      cases h
    · rintro ⟨h, _⟩
      cases h
  | some s =>
    constructor
    · intro h
      obtain rfl := Except.ok.inj h
      exact ⟨rfl, rfl⟩
    · rintro ⟨h, hrules⟩
      obtain ⟨goal, rules⟩ := a
      obtain rfl := Option.some.inj h
      obtain rfl : rules = g.rules := hrules
      rfl

theorem start_isNonterminal (a : Augmented) : a.start.isNonterminal = false := by
  simp [start, Symbol.isNonterminal]

/-! ### Valid items -/

/-- Items of productions of the augmented grammar, with the dot within them. -/
structure Valid (a : Augmented) (i : Item) : Prop where
  rule_eq : a.allRules[i.production]? = some i.rule
  dot_le : i.dot ≤ i.rule.rhs.length

/-- All items with the dot in every place. -/
def items (a : Augmented) : List Item :=
  a.allRules.zipIdx.flatMap fun (r, n) => (List.range (r.rhs.length + 1)).map fun dot => ⟨n, dot, r⟩

theorem mem_items_iff {i : Item} : i ∈ a.items ↔ a.Valid i := by
  unfold items
  simp only [List.mem_flatMap, List.mem_map, List.mem_range, Prod.exists]
  constructor
  · rintro ⟨r, n, hr, dot, hdot, rfl⟩
    exact ⟨by simpa using List.mem_zipIdx_iff_getElem?.mp hr, Nat.le_of_lt_succ hdot⟩
  · rintro ⟨hrule, hdot⟩
    exact ⟨i.rule, i.production, List.mem_zipIdx_iff_getElem?.mpr hrule, i.dot,
      Nat.lt_succ_of_le hdot, rfl⟩

theorem length_items (a : Augmented) : a.items.length = Automaton.itemCount a := by
  have hfrom : ∀ (rs : List Rule) (k : Nat),
      ((rs.zipIdx k).flatMap fun (r, n) =>
        (List.range (r.rhs.length + 1)).map fun dot => (⟨n, dot, r⟩ : Item)).length =
        (rs.flatMap Rule.rhs).length + rs.length := by
    intro rs
    induction rs with
    | nil => exact fun _ => rfl
    | cons r rs ih =>
      intro k
      rw [List.zipIdx_cons, List.flatMap_cons, List.length_append, ih, List.length_map,
        List.length_range, List.flatMap_cons, List.length_append, List.length_cons]
      omega
  exact hfrom a.allRules 0

theorem mem_leadingItems_iff {i : Item} :
    i ∈ a.leadingItems ↔ a.allRules[i.production]? = some i.rule ∧ i.dot = 0 := by
  unfold leadingItems
  simp only [List.mem_map, Prod.exists]
  constructor
  · rintro ⟨r, n, hr, rfl⟩
    exact ⟨List.mem_zipIdx_iff_getElem?.mp hr, rfl⟩
  · rintro ⟨hrule, hdot⟩
    refine ⟨i.rule, i.production, List.mem_zipIdx_iff_getElem?.mpr hrule, ?_⟩
    rw [← hdot]

theorem Valid.of_mem_leadingItems {i : Item} (h : i ∈ a.leadingItems) : a.Valid i := by
  obtain ⟨hrule, hdot⟩ := mem_leadingItems_iff.mp h
  exact ⟨hrule, hdot ▸ Nat.zero_le _⟩

theorem length_leadingItems (a : Augmented) : a.leadingItems.length = a.size := by
  rw [leadingItems, List.length_map, List.length_zipIdx, size]

theorem nodup_leadingItems (a : Augmented) : a.leadingItems.Nodup := by
  refine List.Nodup.of_map Item.production ?_
  have hnumbers : a.leadingItems.map Item.production = List.range a.size := by
    rw [leadingItems, List.map_map, size]
    exact List.zipIdx_map_snd 0 a.allRules |>.trans List.range_eq_range'.symm
  rw [hnumbers]
  exact List.nodup_range

theorem startItem_mem_leadingItems (a : Augmented) : a.startItem ∈ a.leadingItems :=
  mem_leadingItems_iff.mpr ⟨rfl, rfl⟩

theorem eq_startItem {i : Item} (h : i ∈ a.leadingItems) (hzero : i.production = 0) :
    i = a.startItem := by
  obtain ⟨production, dot, rule⟩ := i
  obtain ⟨hrule, hdot⟩ := mem_leadingItems_iff.mp h
  dsimp only at hzero hrule hdot
  subst hzero hdot
  obtain rfl := Option.some.inj hrule
  rfl

/-- Productions behind the first are those of the grammar. -/
theorem getElem?_allRules_succ (a : Augmented) (n : Nat) :
    a.allRules[n + 1]? = a.rules[n]? := rfl

theorem mem_allRules_iff (ha : ofGrammar g = .ok a) {r : Rule} :
    r ∈ a.allRules ↔ r = ⟨a.start, [a.goal]⟩ ∨ ∃ p ∈ g.productions, p.toRule = r := by
  rw [allRules, List.mem_cons, (ofGrammar_eq_ok_iff.mp ha).2, Grammar.rules, List.mem_map]

/-- Items of other productions than the start production are items of the grammar's. -/
theorem Valid.exists_production (ha : ofGrammar g = .ok a) {i : Item} (h : a.Valid i)
    (hzero : i.production ≠ 0) :
    ∃ n p, i.production = n + 1 ∧ g.productions[n]? = some p ∧ p.toRule = i.rule := by
  obtain ⟨n, hn⟩ := Nat.exists_eq_succ_of_ne_zero hzero
  have hrule := h.rule_eq
  rw [hn, Nat.succ_eq_add_one, a.getElem?_allRules_succ, (ofGrammar_eq_ok_iff.mp ha).2,
    Grammar.rules, List.getElem?_map, Option.map_eq_some_iff] at hrule
  obtain ⟨p, hp, hrule⟩ := hrule
  exact ⟨n, p, hn, hp, hrule⟩

theorem Valid.occurs_of_mem_rhs (hg : g.Consistent) (ha : ofGrammar g = .ok a) {i : Item}
    {s : Symbol} (h : a.Valid i) (hs : s ∈ i.rule.rhs) : g.Occurs s := by
  rcases (mem_allRules_iff ha).mp (List.mem_of_getElem? h.rule_eq) with hr | ⟨p, hp, hr⟩
  · rw [hr, List.mem_singleton] at hs
    have hstart := hg.start_mem_nonterminals (ofGrammar_eq_ok_iff.mp ha).1
    exact hs ▸ (hg.mem_nonterminals_iff.mp hstart).2
  · exact ⟨p, hp, .inr (hr ▸ hs)⟩

theorem leading_mem_leadingItems (ha : ofGrammar g = .ok a) {n : Nat} {p : Production}
    (hp : g.productions[n]? = some p) : ⟨n + 1, 0, p.toRule⟩ ∈ a.leadingItems := by
  refine mem_leadingItems_iff.mpr ⟨?_, rfl⟩
  show a.rules[n]? = some p.toRule
  rw [(ofGrammar_eq_ok_iff.mp ha).2, Grammar.rules, List.getElem?_map, hp]
  rfl

end Augmented

/-! ### Moving the dot -/

namespace Item

/-- The item with the dot one symbol further. -/
def moved (i : Item) : Item := { i with dot := i.dot + 1 }

variable {i : Item} {s : Symbol}

theorem dot_lt_of_next? (h : i.next? = some s) : i.dot < i.rule.rhs.length :=
  (List.getElem?_eq_some_iff.mp h).1

theorem advance_of_next? (h : i.next? = some s) : i.advance = .ok i.moved := by
  have hlt := dot_lt_of_next? h
  rw [advance, moveTo, if_pos (by omega)]
  rfl

theorem mem_rhs_of_next? (h : i.next? = some s) : s ∈ i.rule.rhs := List.mem_of_getElem? h

theorem drop_of_next? (h : i.next? = some s) :
    i.rule.rhs.drop i.dot = s :: i.moved.rule.rhs.drop i.moved.dot := by
  obtain ⟨hlt, hget⟩ := List.getElem?_eq_some_iff.mp h
  rw [List.drop_eq_getElem_cons hlt, hget]
  rfl

theorem next?_of_drop {xs : List Symbol} (h : i.rule.rhs.drop i.dot = s :: xs) :
    i.next? = some s := by
  have hhead := congrArg List.head? h
  rw [List.head?_drop] at hhead
  exact hhead

theorem take_of_next? (h : i.next? = some s) :
    i.moved.rule.rhs.take i.moved.dot = i.rule.rhs.take i.dot ++ [s] := by
  have hget : i.rule.rhs[i.dot]? = some s := h
  rw [moved, List.take_add_one, hget]
  rfl

end Item

theorem Augmented.Valid.moved {a : Augmented} {i : Item} {s : Symbol} (h : a.Valid i)
    (hs : i.next? = some s) : a.Valid i.moved := ⟨h.rule_eq, Item.dot_lt_of_next? hs⟩

end ShiftReduce
