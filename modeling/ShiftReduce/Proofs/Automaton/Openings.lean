/-
What the closure of a kernel holds.

The closure table lists for each non-terminal the productions of all names that it opens, its own
ones before the others. Closing a kernel takes one list for each item of the kernel and none for
the items that come in with it, and this is enough: nothing smaller that holds the kernel is closed.

* `ClosureTable.Sound.grows_saturate` — rounds only extend the lists of a table;
* `exists_opens_of_has`, `has_of_opens` — the list of a non-terminal holds the productions of the
  names that it opens, and no others;
* `ClosureTable.IsTransitive` — tables with such lists, and `closureTable_isTransitive`;
* `Augmented.IsClosed` — sets of items that hold all productions behind their dots;
* `Augmented.Closes` — what it is to close a kernel, and `closes_closeKernel`;
* `closureTable_closes` — both hold for every grammar that is read from a text and has productions.
-/
import ShiftReduce.Proofs.Automaton.Coincidence
import Mathlib.Order.Bounds.Defs

namespace ShiftReduce

variable {g : Grammar} {a : Augmented} {i j : Item} {n : Nat} {x : Symbol} {p : Production}

/-! ### Lists of the closure table -/

/-- Rounds only extend the lists of a table. -/
theorem ClosureTable.Sound.grows_saturate {full : Bool} {table : ClosureTable}
    (h : Sound g a full table) (rounds : Nat) : table.Grows (table.saturate a.size rounds) := by
  induction rounds generalizing table with
  | zero => exact .refl table
  | succ rounds ih =>
    obtain ⟨hsound, hgrows⟩ := h.round fun n => (h.mem_iff n).mp
    rw [ClosureTable.saturate]
    split
    · exact hgrows.trans (ih hsound)
    · exact hgrows

/-- The productions of non-terminals are those of the grammar. -/
theorem exists_production_of_leading (hg : g.Consistent) (ha : Augmented.ofGrammar g = .ok a)
    (hi : i ∈ a.leadingItems) (hname : i.rule.name ∈ g.nonterminals) :
    ∃ n p, g.productions[n]? = some p ∧ i = ⟨n + 1, 0, p.toRule⟩ := by
  have hvalid := Augmented.Valid.of_mem_leadingItems hi
  obtain ⟨n, p, hn, hp, hrule⟩ := hvalid.exists_production ha (production_ne_zero hg hvalid hname)
  refine ⟨n, p, hp, ?_⟩
  rw [hrule, ← hn, ← (Augmented.mem_leadingItems_iff.mp hi).2]

/-- The list of a non-terminal holds only productions of names that it opens. -/
theorem exists_opens_of_has (hg : g.Consistent) (ha : Augmented.ofGrammar g = .ok a)
    (hx : x ∈ g.nonterminals) (h : (closureTable g a).Has x i) :
    ∃ n p, g.productions[n]? = some p ∧ i = ⟨n + 1, 0, p.toRule⟩ ∧ g.Opens x p.name := by
  -- The induction is on how the item is reached from the productions of the non-terminal.
  have hreached := (closureTable_spec g a false).1.reached x i h
  clear h
  induction hreached with
  | base i hi =>
    obtain ⟨hleading, hname⟩ := hi
    obtain ⟨n, p, hp, rfl⟩ := exists_production_of_leading hg ha hleading (hname ▸ hx)
    exact ⟨n, p, hp, rfl, hname ▸ .start⟩
  | step k i hki _ ih =>
    obtain ⟨y, hy, hnext, hleading, hname⟩ := hki
    obtain ⟨n, p, hp, rfl⟩ := exists_production_of_leading hg ha hleading (hname ▸ hy)
    obtain ⟨m, q, hq, rfl, hopens⟩ := ih
    have hhead : q.rhs.head? = some y := List.head?_eq_getElem?.trans hnext
    exact ⟨n, p, hp, rfl, hname ▸ .first hopens (List.mem_of_getElem? hq) hhead⟩

/-- The list of a non-terminal holds the productions of every name that it opens. -/
theorem has_of_opens (hg : g.Consistent) (ha : Augmented.ofGrammar g = .ok a)
    (hx : x ∈ g.nonterminals) {y : Symbol} (h : g.Opens x y) (hp : g.productions[n]? = some p)
    (hname : p.name = y) : (closureTable g a).Has x ⟨n + 1, 0, p.toRule⟩ := by
  obtain ⟨hsound, hclosed⟩ := closureTable_spec g a false
  induction h generalizing n p with
  | start => exact hsound.own x hx _ (Augmented.leading_mem_leadingItems ha hp) hname
  | @first q y _ hq hhead ih =>
    obtain ⟨m, hm⟩ := List.mem_iff_getElem?.mp hq
    have hy : y ∈ g.nonterminals := hname ▸ hg.name_mem_nonterminals (List.mem_of_getElem? hp)
    -- The production stands behind the dot of one whose name is opened before.
    have hown := hsound.own y hy _ (Augmented.leading_mem_leadingItems ha hp) hname
    have hnext : (⟨m + 1, 0, q.toRule⟩ : Item).next? = some y :=
      List.head?_eq_getElem?.symm.trans hhead
    exact hclosed x _ _ (ih hm rfl) (ClosureTable.mem_behind_iff.mpr ⟨y, hnext, hown⟩)

/-- Tables that list for each non-terminal the productions of all names that it opens, without
repeats and with its own ones first. -/
structure ClosureTable.IsTransitive (g : Grammar) (a : Augmented) (table : ClosureTable) :
    Prop where
  mem_iff : ∀ x, x ∈ table ↔ x ∈ g.nonterminals
  nodup : ∀ x l, table.find? x = some l → l.Nodup
  own_first : ∀ x l, table.find? x = some l → a.leadingItems.filter (·.rule.name = x) <+: l
  mem_list_iff : ∀ x l, table.find? x = some l → ∀ i, i ∈ l ↔
    ∃ n p, g.productions[n]? = some p ∧ i = ⟨n + 1, 0, p.toRule⟩ ∧ g.Opens x p.name

theorem closureTable_isTransitive (hg : g.Consistent) (ha : Augmented.ofGrammar g = .ok a) :
    (closureTable g a).IsTransitive g a := by
  have hsound := (closureTable_spec g a false).1
  refine ⟨hsound.mem_iff, fun x l hl => (hsound.within x l hl).1, fun x l hl => ?_,
    fun x l hl i => ?_⟩
  · have hx := (hsound.mem_iff x).mp (Assoc.mem_of_find? hl)
    have hown : (ClosureTable.initial g a).find? x =
        some (a.leadingItems.filter (·.rule.name = x)) := by
      rw [ClosureTable.find?_initial, if_pos hx]
    -- The first table has just the own productions, and all rounds extend its lists.
    have hgrows : (ClosureTable.initial g a).Grows (closureTable g a) :=
      (ClosureTable.sound_initial g a false).grows_saturate _
    obtain ⟨l', hl', hbegin⟩ := hgrows.exists_find? hown
    obtain rfl := Option.some.inj (hl.symm.trans hl')
    exact hbegin
  · have hx := (hsound.mem_iff x).mp (Assoc.mem_of_find? hl)
    rw [← Assoc.has_iff_of_find? hl]
    constructor
    · exact exists_opens_of_has hg ha hx
    · rintro ⟨n, p, hp, rfl, hopens⟩
      exact has_of_opens hg ha hx hopens hp rfl

/-! ### Closed sets of items -/

namespace Augmented

/-- Sets of items that hold, for each of their items with the dot before a non-terminal, all
productions of this with the dot in front. -/
def IsClosed (a : Augmented) (S : Set Item) : Prop :=
  ∀ i ∈ S, ∀ y : Symbol, y.isNonterminal = true → i.next? = some y →
    ∀ j ∈ a.leadingItems, j.rule.name = y → j ∈ S

/-- Lists of items that are a kernel and behind it what it lacks of the least closed set around
it, without repeats. -/
structure Closes (a : Augmented) (kernel items : List Item) : Prop where
  kernel_first : kernel <+: items
  nodup : items.Nodup
  valid : ∀ i ∈ items, a.Valid i
  isLeast : IsLeast {S : Set Item | (∀ i ∈ kernel, i ∈ S) ∧ a.IsClosed S} {i | i ∈ items}

end Augmented

theorem prefix_closeKernel (table : ClosureTable) (kernel : List Item) :
    kernel <+: closeKernel table kernel := by
  have hfold : ∀ is items : List Item,
      items <+: is.foldl (fun items i => extend items (table.behind i)) items := by
    intro is
    induction is with
    | nil => exact fun items => List.prefix_refl items
    | cons i is ih => exact fun items => (prefix_extend items _).trans (ih _)
  exact hfold kernel kernel

/-- The name of a production is a non-terminal of the grammar if its letters make it one. -/
theorem mem_nonterminals_of_leading (hg : g.Consistent) (ha : Augmented.ofGrammar g = .ok a)
    (hj : j ∈ a.leadingItems) (hname : Symbol.isNonterminal j.rule.name = true) :
    j.rule.name ∈ g.nonterminals := by
  have hrule := List.mem_of_getElem? (Augmented.mem_leadingItems_iff.mp hj).1
  rcases (Augmented.mem_allRules_iff ha).mp hrule with hstart | ⟨p, hp, hrule⟩
  · -- The name of the start production is no non-terminal of a grammar.
    rw [hstart, a.start_isNonterminal] at hname
    cases hname
  · exact hrule ▸ hg.name_mem_nonterminals hp

/-- One union for each item of a kernel closes it. -/
theorem closes_closeKernel (hg : g.Consistent) (ha : Augmented.ofGrammar g = .ok a)
    {kernel : List Item} (hnodup : kernel.Nodup) (hvalid : ∀ i ∈ kernel, a.Valid i) :
    a.Closes kernel (closeKernel (closureTable g a) kernel) := by
  have hmem : ∀ j, j ∈ closeKernel (closureTable g a) kernel ↔
      j ∈ (itemNfa g a false).εClosure {i | i ∈ kernel} := fun j => mem_closeKernel_iff false
  refine ⟨prefix_closeKernel _ _, nodup_closeKernel hnodup, fun j hj => ?_, ⟨?_, ?_⟩, ?_⟩
  · induction (hmem j).mp hj with
    | base i hi => exact hvalid i hi
    | step i j hij _ _ =>
      obtain ⟨_, _, _, hleading, _⟩ := hij
      exact .of_mem_leadingItems hleading
  · exact fun i hi => (prefix_closeKernel _ _).subset hi
  · intro i hi y hy hnext j hj hname
    have hyg : y ∈ g.nonterminals := by
      subst hname
      exact mem_nonterminals_of_leading hg ha hj hy
    exact (hmem j).mpr (εNFA.εClosure.step i j ⟨y, hyg, hnext, hj, hname⟩ ((hmem i).mp hi))
  · rintro S ⟨hkernel, hclosed⟩ j hj
    induction (hmem j).mp hj with
    | base i hi => exact hkernel i hi
    | step i j hij hi ih =>
      obtain ⟨y, hy, hnext, hleading, hname⟩ := hij
      exact hclosed i (ih ((hmem i).mpr hi)) y (hg.mem_nonterminals_iff.mp hy).1 hnext j hleading
        hname

/-- The closure table of every grammar that is read from a text and has productions lists what each
non-terminal opens, and with it one union for each item of a kernel closes the kernel. -/
theorem closureTable_closes (text : String) (hne : (Grammar.parse text).1.productions ≠ []) :
    ∃ a, Augmented.ofGrammar (Grammar.parse text).1 = .ok a ∧
      (closureTable (Grammar.parse text).1 a).IsTransitive (Grammar.parse text).1 a ∧
      ∀ kernel : List Item, kernel.Nodup → (∀ i ∈ kernel, a.Valid i) →
        a.Closes kernel (closeKernel (closureTable (Grammar.parse text).1 a) kernel) := by
  have hg := Grammar.parse_consistent text
  obtain ⟨s, hs⟩ := hg.exists_start_of_ne_nil hne
  have ha : Augmented.ofGrammar (Grammar.parse text).1 = .ok ⟨s, (Grammar.parse text).1.rules⟩ :=
    Augmented.ofGrammar_eq_ok_iff.mpr ⟨hs, rfl⟩
  exact ⟨_, ha, closureTable_isTransitive hg ha, fun _ => closes_closeKernel hg ha⟩

/-- Names that open each other, one that has no productions, and a kernel with one of the items that
closing it would add. -/
theorem closureTable_closes_mutual :
    (Grammar.parse "S -> A c | U b A -> S a | ε").1.productions ≠ [] ∧
      ∃ a, Augmented.ofGrammar (Grammar.parse "S -> A c | U b A -> S a | ε").1 = .ok a ∧
        (closureTable (Grammar.parse "S -> A c | U b A -> S a | ε").1 a).IsTransitive
          (Grammar.parse "S -> A c | U b A -> S a | ε").1 a ∧
        [a.startItem, ⟨2, 0, ⟨"S", ["U", "b"]⟩⟩].Nodup ∧
        (∀ i ∈ [a.startItem, ⟨2, 0, ⟨"S", ["U", "b"]⟩⟩], a.Valid i) ∧
        a.Closes [a.startItem, ⟨2, 0, ⟨"S", ["U", "b"]⟩⟩]
          [a.startItem, ⟨2, 0, ⟨"S", ["U", "b"]⟩⟩, ⟨1, 0, ⟨"S", ["A", "c"]⟩⟩,
            ⟨3, 0, ⟨"A", ["S", "a"]⟩⟩, ⟨4, 0, ⟨"A", []⟩⟩] := by
  have hne : (Grammar.parse "S -> A c | U b A -> S a | ε").1.productions ≠ [] := by
    decide +kernel
  have hrules : Augmented.ofGrammar (Grammar.parse "S -> A c | U b A -> S a | ε").1 =
      .ok ⟨"S", [⟨"S", ["A", "c"]⟩, ⟨"S", ["U", "b"]⟩, ⟨"A", ["S", "a"]⟩, ⟨"A", []⟩]⟩ := by
    decide +kernel
  have hitems : closeKernel (closureTable (Grammar.parse "S -> A c | U b A -> S a | ε").1
      ⟨"S", [⟨"S", ["A", "c"]⟩, ⟨"S", ["U", "b"]⟩, ⟨"A", ["S", "a"]⟩, ⟨"A", []⟩]⟩)
      [⟨0, 0, ⟨"S'", ["S"]⟩⟩, ⟨2, 0, ⟨"S", ["U", "b"]⟩⟩] =
        [⟨0, 0, ⟨"S'", ["S"]⟩⟩, ⟨2, 0, ⟨"S", ["U", "b"]⟩⟩, ⟨1, 0, ⟨"S", ["A", "c"]⟩⟩,
          ⟨3, 0, ⟨"A", ["S", "a"]⟩⟩, ⟨4, 0, ⟨"A", []⟩⟩] := by
    decide +kernel
  obtain ⟨a, ha, hlists, hcloses⟩ := closureTable_closes _ hne
  obtain rfl := Except.ok.inj (ha.symm.trans hrules)
  have hvalid : ∀ i ∈ [(⟨0, 0, ⟨"S'", ["S"]⟩⟩ : Item), ⟨2, 0, ⟨"S", ["U", "b"]⟩⟩],
      Augmented.Valid ⟨"S", [⟨"S", ["A", "c"]⟩, ⟨"S", ["U", "b"]⟩, ⟨"A", ["S", "a"]⟩,
        ⟨"A", []⟩]⟩ i :=
    fun i hi => .of_mem_leadingItems (by revert i; decide)
  have hcloses' := hcloses _ (by decide) hvalid
  rw [hitems] at hcloses'
  exact ⟨hne, _, ha, hlists, by decide, hvalid, hcloses'⟩

end ShiftReduce
