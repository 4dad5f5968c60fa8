/-
When every production in state 0 gives the automaton that the start item gives.

The two constructions take the same steps as long as their states hold the same items, so the
automata coincide just if the first states do. The start item alone begins with the productions
whose names are opened from the start symbol: each stands first on a right side of the one before.
A production that is met only behind other symbols is missing there.

* `Automaton.Alike` — the same transitions, and the same items in each state;
* `Alike.expandOn`, `Alike.expand`, `Alike.expandFrom` — each step of the construction keeps this;
* `Grammar.Opens` — a name is opened from another;
* `mem_eval_of_opens`, `opens_of_mem_eval` — before a symbol is read the start item leads to the
  productions of opened names, and to no others;
* `build_full_alike_iff` — the automata coincide just if all names are opened, and then all are
  reached;
* `build_full_differs` — but they may be reached without being opened.
-/
import ShiftReduce.Proofs.Automaton.Determinisation
import ShiftReduce.Proofs.Grammar.Reachability

namespace ShiftReduce

namespace Automaton

/-- Automata with the same closure table and the same transitions, and with the same items in each
state. -/
structure Alike (m m' : Automaton) : Prop where
  closures : m'.closures = m.closures
  states : List.Forall₂ (fun items items' => ∀ i, i ∈ items ↔ i ∈ items') m.states m'.states
  transitions : m'.transitions = m.transitions

variable {g : Grammar} {m m' r : Automaton} {items items' : List Item} {n : Nat} {s : Symbol}

/-! ### The construction -/

theorem mem_closeKernel_congr (table : ClosureTable) {kernel kernel' : List Item}
    (h : ∀ i, i ∈ kernel ↔ i ∈ kernel') (j : Item) :
    j ∈ closeKernel table kernel ↔ j ∈ closeKernel table kernel' := by
  rw [closeKernel, closeKernel, mem_foldl_extend, mem_foldl_extend]
  simp only [h]

/-- The symbols behind the dots could be collected, so all of them are symbols of the grammar. -/
theorem mem_symbols_of_pendingSymbols {pending : List Symbol}
    (h : pendingSymbols g items = .ok pending) :
    ∀ i ∈ items, ∀ s, i.next? = some s → s ∈ g.symbols := by
  induction items generalizing pending with
  | nil => exact fun i hi => absurd hi List.not_mem_nil
  | cons j items ih =>
    rw [pendingSymbols] at h
    intro i hi s hnext
    cases hj : j.next? with
    | none =>
      rw [hj] at h
      rcases List.mem_cons.mp hi with rfl | hi
      · cases hj.symm.trans hnext
      · exact ih h i hi s hnext
    | some t =>
      rw [hj] at h
      dsimp only at h
      split at h
      · next hclass =>
        obtain ⟨rest, hrest, _⟩ := map_eq_ok_iff.mp h
        rcases List.mem_cons.mp hi with rfl | hi
        · obtain rfl := Option.some.inj (hj.symm.trans hnext)
          exact List.mem_append.mpr hclass
        · exact ih hrest i hi s hnext
      · cases h

namespace Alike

theorem goto (h : m.Alike m') (n : Nat) (s : Symbol) : m'.goto n s = m.goto n s := by
  rw [Automaton.goto, Automaton.goto, h.transitions]

theorem exists_state (h : m.Alike m') (hn : m.states[n]? = some items) :
    ∃ items', m'.states[n]? = some items' ∧ ∀ i, i ∈ items ↔ i ∈ items' := by
  obtain ⟨hlt, rfl⟩ := List.getElem?_eq_some_iff.mp hn
  have hlt' : n < m'.states.length := h.states.length_eq ▸ hlt
  exact ⟨_, List.getElem?_eq_getElem hlt', h.states.get hlt hlt'⟩

theorem getElem?_eq_none (h : m.Alike m') (hn : m.states[n]? = none) : m'.states[n]? = none := by
  rw [List.getElem?_eq_none_iff] at hn ⊢
  exact h.states.length_eq ▸ hn

theorem stateOf? (h : m.Alike m') (hsame : ∀ i, i ∈ items ↔ i ∈ items') :
    m'.stateOf? items' = m.stateOf? items := by
  have hstates := h.states
  unfold Automaton.stateOf?
  generalize m.states = ls at hstates
  generalize m'.states = ls' at hstates
  induction hstates with
  | nil => rfl
  | @cons l l' _ _ hl _ ih =>
    -- A state is found by its items alone, in whatever order they stand.
    have heq : sameItems items' l' = sameItems items l := by
      rw [Bool.eq_iff_iff, sameItems_iff, sameItems_iff]
      exact forall_congr' fun i => iff_congr (hsame i).symm (hl i).symm
    rw [List.findIdx?_cons, List.findIdx?_cons, heq, ih]

theorem addState (h : m.Alike m') (hsame : ∀ i, i ∈ items ↔ i ∈ items') :
    (m.addState items).Alike (m'.addState items') :=
  ⟨h.closures, List.rel_append h.states (.cons hsame .nil), h.transitions⟩

theorem addTransition (h : m.Alike m') {t : Transition} (hok : m.addTransition t = .ok r) :
    ∃ r', m'.addTransition t = .ok r' ∧ r.Alike r' := by
  unfold Automaton.addTransition at hok ⊢
  rw [h.goto]
  cases hgoto : m.goto t.source t.symbol with
  | some k =>
    rw [hgoto] at hok
    cases hok
  | none =>
    rw [hgoto] at hok
    obtain rfl := Except.ok.inj hok
    exact ⟨_, rfl, h.closures, h.states, congrArg (· ++ [t]) h.transitions⟩

/-- The items that pass a symbol close to the same items, which are found or added alike. -/
theorem expandOn (h : m.Alike m') (hsame : ∀ i, i ∈ items ↔ i ∈ items')
    (hok : m.expandOn n items s = .ok r) :
    ∃ r', m'.expandOn n items' s = .ok r' ∧ r.Alike r' := by
  rw [Automaton.expandOn, kernelOn_eq_ok] at hok ⊢
  have hkernel : ∀ i, i ∈ (items.filter (·.next? = some s)).map Item.moved ↔
      i ∈ (items'.filter (·.next? = some s)).map Item.moved := fun i => by
    simp only [List.mem_map, List.mem_filter, hsame]
  generalize (items.filter (·.next? = some s)).map Item.moved = kernel at hkernel hok
  generalize (items'.filter (·.next? = some s)).map Item.moved = kernel' at hkernel ⊢
  have htarget := mem_closeKernel_congr m.closures hkernel
  simp only [bind, Except.bind] at hok ⊢
  rw [h.closures, h.stateOf? htarget]
  cases hknown : m.stateOf? (closeKernel m.closures kernel) with
  | some known =>
    rw [hknown] at hok
    exact h.addTransition hok
  | none =>
    rw [hknown] at hok
    -- The state that is added gets the same number.
    have hlength : m'.states.length = m.states.length := h.states.length_eq.symm
    rw [hlength]
    exact (h.addState htarget).addTransition hok

theorem expand (h : m.Alike m') (hsame : ∀ i, i ∈ items ↔ i ∈ items')
    (hok : expand g m n items = .ok r) :
    ∃ r', Automaton.expand g m' n items' = .ok r' ∧ r.Alike r' := by
  obtain ⟨pending, hpending, hfold⟩ := bind_eq_ok_iff.mp hok
  have hclass := mem_symbols_of_pendingSymbols hpending
  obtain ⟨pending₁, hpending₁, hmem⟩ := pendingSymbols_ok hclass
  obtain rfl := Except.ok.inj (hpending.symm.trans hpending₁)
  obtain ⟨pending', hpending', hmem'⟩ :=
    pendingSymbols_ok fun i hi => hclass i ((hsame i).mpr hi)
  -- The order in which the symbols are taken is that of the grammar.
  have heq : g.symbols.filter (· ∈ pending') = g.symbols.filter (· ∈ pending) :=
    List.filter_congr fun s _ => by simp only [hmem, hmem', hsame]
  obtain ⟨r', hr', hall⟩ :=
    foldlM_related (fun s _ _ _ halike hstep => halike.expandOn (s := s) hsame hstep) h hfold
  refine ⟨r', ?_, hall⟩
  rw [Automaton.expand, hpending']
  show List.foldlM _ _ (g.symbols.filter (· ∈ pending')) = _
  rw [heq]
  exact hr'

theorem expandFrom {steps : Nat} (h : m.Alike m') (hok : expandFrom g steps n m = .ok r) :
    ∃ r', Automaton.expandFrom g steps n m' = .ok r' ∧ r.Alike r' := by
  induction steps generalizing n m m' with
  | zero =>
    obtain rfl := Except.ok.inj hok
    exact ⟨m', rfl, h⟩
  | succ steps ih =>
    rw [Automaton.expandFrom] at hok ⊢
    cases hn : m.states[n]? with
    | none =>
      rw [hn] at hok
      obtain rfl := Except.ok.inj hok
      rw [h.getElem?_eq_none hn]
      exact ⟨m', rfl, h⟩
    | some items =>
      rw [hn] at hok
      obtain ⟨m₁, hexpand, hrest⟩ := bind_eq_ok_iff.mp hok
      obtain ⟨items', hn', hsame⟩ := h.exists_state hn
      obtain ⟨m₁', hexpand', h₁⟩ := h.expand hsame hexpand
      obtain ⟨r', hr', hall⟩ := ih h₁ hrest
      rw [hn']
      exact ⟨r', bind_eq_ok_iff.mpr ⟨m₁', hexpand', hr'⟩, hall⟩

end Alike

variable {a : Augmented}

/-- Constructions that begin with the same items go on alike. -/
theorem alike_of_build (hm : build g a false = .ok m) (hm' : build g a true = .ok m')
    (hsame : ∀ i, i ∈ (itemNfa g a false).eval [] ↔ i ∈ (itemNfa g a true).eval []) :
    m.Alike m' := by
  rw [build] at hm hm'
  have hinitial : ∀ i, i ∈ closeKernel (closureTable g a) [a.startItem] ↔ i ∈ a.leadingItems :=
    fun i => (mem_initial_iff false).trans ((hsame i).trans (mem_initial_iff true).symm)
  have hempty : (⟨a, closureTable g a, [], [], none⟩ : Automaton).Alike
      ⟨a, closureTable g a, [], [], none⟩ := ⟨rfl, .nil, rfl⟩
  obtain ⟨r, hr, h⟩ := (hempty.addState hinitial).expandFrom hm
  obtain rfl := Except.ok.inj (hr.symm.trans hm')
  exact h

/-- The automata coincide just if the items do that are there before a symbol is read. -/
theorem alike_iff (hm : build g a false = .ok m) (hm' : build g a true = .ok m')
    (h : m.Built g a false) (h' : m'.Built g a true) :
    m.Alike m' ↔ ∀ i, i ∈ (itemNfa g a false).eval [] ↔ i ∈ (itemNfa g a true).eval [] := by
  constructor
  · intro halike i
    obtain ⟨items, hitems, hmem⟩ := h.initial
    obtain ⟨items', hitems', hmem'⟩ := h'.initial
    obtain ⟨items₁, hitems₁, hsame⟩ := halike.exists_state hitems
    obtain rfl := Option.some.inj (hitems₁.symm.trans hitems')
    rw [← hmem, ← hmem', hsame]
  · exact alike_of_build hm hm'

end Automaton

/-! ### Opened names -/

namespace Grammar

/-- Names that are opened from `s`: itself, and what stands first on the right sides of a name that
is opened. -/
inductive Opens (g : Grammar) (s : Symbol) : Symbol → Prop
  | start : Opens g s s
  | first {p : Production} {n : Symbol} : Opens g s p.name → p ∈ g.productions →
      p.rhs.head? = some n → Opens g s n

theorem Opens.reaches {g : Grammar} {s n : Symbol} (h : g.Opens s n) : g.Reaches s n := by
  induction h with
  | start => exact .refl g s
  | first _ hp hhead ih => exact ih.of_mem_rhs hp (List.mem_of_head? hhead)

/-- If the names of all productions are opened then no non-terminal is reported. -/
theorem unreachable_eq_nil_of_opens {g : Grammar} {s : Symbol} (hg : g.Consistent)
    (hs : g.start = some s) (h : ∀ p ∈ g.productions, g.Opens s p.name) : g.unreachable = [] := by
  rw [unreachable_eq_nil_iff hg hs]
  intro n hn
  obtain ⟨p, hp, hoccurs⟩ := (hg.mem_nonterminals_iff.mp hn).2
  rcases hoccurs with rfl | hrhs
  · exact (h p hp).reaches
  · exact (h p hp).reaches.of_mem_rhs hp hrhs

end Grammar

section Opened

variable {g : Grammar} {a : Augmented} {i j : Item} {n : Symbol}

/-- The productions of a name that is opened are there before a symbol is read. -/
theorem mem_eval_of_opens (hg : g.Consistent) (ha : Augmented.ofGrammar g = .ok a)
    (h : g.Opens a.goal n) (hn : n ∈ g.nonterminals) (hj : j ∈ a.leadingItems)
    (hname : j.rule.name = n) : j ∈ (itemNfa g a false).eval [] := by
  induction h generalizing j with
  | start => exact mem_eval_open (mem_eval_of_mem_start startItem_mem_start) hn rfl hj hname
  | @first p n _ hp hhead ih =>
    obtain ⟨k, hk⟩ := List.mem_iff_getElem?.mp hp
    have hbefore := ih (hg.name_mem_nonterminals hp) (Augmented.leading_mem_leadingItems ha hk) rfl
    exact mem_eval_open hbefore hn (List.head?_eq_getElem?.symm.trans hhead) hj hname

/-- Before a symbol is read there are the start item and productions of opened names. -/
theorem opens_of_mem_eval (hg : g.Consistent) (ha : Augmented.ofGrammar g = .ok a)
    (h : i ∈ (itemNfa g a false).eval []) :
    i = a.startItem ∨
      ∃ p ∈ g.productions, i = ⟨i.production, 0, p.toRule⟩ ∧ g.Opens a.goal p.name := by
  refine eval_induction (P := fun w i => w = [] → i = a.startItem ∨
    ∃ p ∈ g.productions, i = ⟨i.production, 0, p.toRule⟩ ∧ g.Opens a.goal p.name)
    ?_ ?_ ?_ h rfl
  · exact fun i hi _ => .inl hi
  · rintro w i j n _ ih hn hnext hj rfl hw
    have hvalid := Augmented.Valid.of_mem_leadingItems hj
    obtain ⟨_, p, _, hk, hrule⟩ := hvalid.exists_production ha (production_ne_zero hg hvalid hn)
    refine .inr ⟨p, List.mem_of_getElem? hk, ?_, ?_⟩
    · rw [hrule, ← (Augmented.mem_leadingItems_iff.mp hj).2]
    -- The name stands behind the dot of the start item, or first on a right side.
    · rw [show p.name = j.rule.name from congrArg Rule.name hrule]
      rcases ih hw with rfl | ⟨q, hq, heq, hopens⟩
      · obtain hgoal : a.goal = j.rule.name := Option.some.inj hnext
        exact hgoal ▸ .start
      · rw [heq] at hnext
        exact .first hopens hq (List.head?_eq_getElem?.trans hnext)
  · intro w i s _ _ _ hw
    exact absurd hw (List.append_ne_nil_of_right_ne_nil w (List.cons_ne_nil s []))

/-- All productions are there before a symbol is read just if all names are opened. -/
theorem eval_start_iff (hg : g.Consistent) (ha : Augmented.ofGrammar g = .ok a) :
    (∀ i, i ∈ (itemNfa g a false).eval [] ↔ i ∈ (itemNfa g a true).eval []) ↔
      ∀ p ∈ g.productions, g.Opens a.goal p.name := by
  constructor
  · intro hsame p hp
    obtain ⟨k, hk⟩ := List.mem_iff_getElem?.mp hp
    have hleading := Augmented.leading_mem_leadingItems ha hk
    have hmem := (hsame _).mpr (mem_eval_of_mem_start (mem_start_iff.mpr hleading))
    rcases opens_of_mem_eval hg ha hmem with heq | ⟨q, _, heq, hopens⟩
    · cases congrArg Item.production heq
    · have hname : p.name = q.name := congrArg (·.rule.name) heq
      exact hname ▸ hopens
  · intro hopens i
    refine ⟨mem_eval_full, fun hi => ?_⟩
    have hleading : i ∈ a.leadingItems := (Automaton.mem_initial_iff true).mpr hi
    have hvalid := Augmented.Valid.of_mem_leadingItems hleading
    by_cases hzero : i.production = 0
    · rw [Augmented.eq_startItem hleading hzero]
      exact mem_eval_of_mem_start startItem_mem_start
    · obtain ⟨_, p, _, hk, hrule⟩ := hvalid.exists_production ha hzero
      have hp := List.mem_of_getElem? hk
      exact mem_eval_of_opens hg ha (hopens p hp) (hg.name_mem_nonterminals hp) hleading
        (congrArg Rule.name hrule).symm

end Opened

/-! ### The two automata of a grammar -/

/-- The two automata of a grammar coincide just if the names of all its productions are opened
from the start symbol. All its non-terminals are reached then. -/
theorem build_full_alike_iff {text : String} (hne : (Grammar.parse text).1.productions ≠ []) :
    ∃ a m m', Augmented.ofGrammar (Grammar.parse text).1 = .ok a ∧
      Automaton.build (Grammar.parse text).1 a false = .ok m ∧
      Automaton.build (Grammar.parse text).1 a true = .ok m' ∧
      (m.Alike m' ↔ ∀ p ∈ (Grammar.parse text).1.productions,
        (Grammar.parse text).1.Opens a.goal p.name) ∧
      (m.Alike m' → (Grammar.parse text).1.unreachable = []) := by
  have hg := Grammar.parse_consistent text
  obtain ⟨s, hs⟩ := hg.exists_start_of_ne_nil hne
  have ha : Augmented.ofGrammar (Grammar.parse text).1 = .ok ⟨s, (Grammar.parse text).1.rules⟩ :=
    Augmented.ofGrammar_eq_ok_iff.mpr ⟨hs, rfl⟩
  obtain ⟨m, hm, h⟩ := Automaton.build_ok hg ha false
  obtain ⟨m', hm', h'⟩ := Automaton.build_ok hg ha true
  have hiff := (Automaton.alike_iff hm hm' h h').trans (eval_start_iff hg ha)
  exact ⟨_, m, m', ha, hm, hm', hiff, fun halike =>
    Grammar.unreachable_eq_nil_of_opens hg hs (hiff.mp halike)⟩

/-- Sums: each name stands first on a right side of the one before, so the automata coincide. -/
theorem build_full_alike_iff_sums :
    (Grammar.parse "S -> E E -> E + T | T T -> id").1.productions ≠ [] ∧
      ∃ a m m', Augmented.ofGrammar (Grammar.parse "S -> E E -> E + T | T T -> id").1 = .ok a ∧
        Automaton.build (Grammar.parse "S -> E E -> E + T | T T -> id").1 a false = .ok m ∧
        Automaton.build (Grammar.parse "S -> E E -> E + T | T T -> id").1 a true = .ok m' ∧
        (m.Alike m' ↔ ∀ p ∈ (Grammar.parse "S -> E E -> E + T | T T -> id").1.productions,
          (Grammar.parse "S -> E E -> E + T | T T -> id").1.Opens a.goal p.name) ∧
        (m.Alike m' → (Grammar.parse "S -> E E -> E + T | T T -> id").1.unreachable = []) ∧
        m.Alike m' := by
  have hproductions : (Grammar.parse "S -> E E -> E + T | T T -> id").1.productions =
      [⟨⟨"S", ["E"]⟩, 0⟩, ⟨⟨"E", ["E", "+", "T"]⟩, 1⟩, ⟨⟨"E", ["T"]⟩, 2⟩, ⟨⟨"T", ["id"]⟩, 3⟩] := by
    decide +kernel
  have hstart : (Grammar.parse "S -> E E -> E + T | T T -> id").1.start = some "S" := by
    decide +kernel
  have hne : (Grammar.parse "S -> E E -> E + T | T T -> id").1.productions ≠ [] := by
    rw [hproductions]
    exact List.cons_ne_nil _ _
  obtain ⟨a, m, m', ha, hm, hm', hiff, hreached⟩ := build_full_alike_iff hne
  have hgoal : a.goal = "S" :=
    Option.some.inj ((Augmented.ofGrammar_eq_ok_iff.mp ha).1.symm.trans hstart)
  refine ⟨hne, a, m, m', ha, hm, hm', hiff, hreached, hiff.mpr ?_⟩
  generalize (Grammar.parse "S -> E E -> E + T | T T -> id").1 = g at hproductions
  have hS : g.Opens a.goal "S" := hgoal ▸ .start
  have hE : g.Opens a.goal "E" :=
    .first (p := ⟨⟨"S", ["E"]⟩, 0⟩) hS (by rw [hproductions]; decide) rfl
  have hT : g.Opens a.goal "T" :=
    .first (p := ⟨⟨"E", ["T"]⟩, 2⟩) hE (by rw [hproductions]; decide) rfl
  rw [hproductions]
  simp [hS, hE, hT]

/-- A name that is reached, but only behind a terminal. Its production stands in state 0 only with
all others, and moves on from there. -/
theorem build_full_differs :
    (Grammar.parse "S -> a A A -> b").1.productions ≠ [] ∧
      (Grammar.parse "S -> a A A -> b").1.unreachable = [] ∧
      ∃ a m m', Augmented.ofGrammar (Grammar.parse "S -> a A A -> b").1 = .ok a ∧
        Automaton.build (Grammar.parse "S -> a A A -> b").1 a false = .ok m ∧
        Automaton.build (Grammar.parse "S -> a A A -> b").1 a true = .ok m' ∧
        ¬List.Forall₂ (fun items items' => ∀ i, i ∈ items ↔ i ∈ items') m.states m'.states ∧
        m'.transitions ≠ m.transitions := by
  have hne : (Grammar.parse "S -> a A A -> b").1.productions ≠ [] := by
    decide +kernel
  have hreached : (Grammar.parse "S -> a A A -> b").1.unreachable = [] := by
    decide +kernel
  have ha : Augmented.ofGrammar (Grammar.parse "S -> a A A -> b").1 =
      .ok ⟨"S", [⟨"S", ["a", "A"]⟩, ⟨"A", ["b"]⟩]⟩ := by
    decide +kernel
  -- The productions in state 0, and where `b` leads from there.
  have hplain : (Automaton.build (Grammar.parse "S -> a A A -> b").1
      ⟨"S", [⟨"S", ["a", "A"]⟩, ⟨"A", ["b"]⟩]⟩ false).toOption.map (fun m =>
        (m.states.head?.map (·.map Item.production), m.goto 0 "b")) = some (some [0, 1], none) := by
    decide +kernel
  have hfull : (Automaton.build (Grammar.parse "S -> a A A -> b").1
      ⟨"S", [⟨"S", ["a", "A"]⟩, ⟨"A", ["b"]⟩]⟩ true).toOption.map (fun m =>
        (m.states.head?.map (·.map Item.production), m.goto 0 "b")) =
      some (some [0, 1, 2], some 2) := by
    decide +kernel
  obtain ⟨m, hm, hview⟩ := exists_of_toOption hplain
  obtain ⟨m', hm', hview'⟩ := exists_of_toOption hfull
  obtain ⟨hstate, hgoto⟩ := Prod.mk.inj hview
  obtain ⟨hstate', hgoto'⟩ := Prod.mk.inj hview'
  refine ⟨hne, hreached, _, m, m', ha, hm, hm', fun hstates => ?_, fun heq => ?_⟩
  · obtain ⟨items, hitems, hproductions⟩ := Option.map_eq_some_iff.mp hstate
    obtain ⟨items', hitems', hproductions'⟩ := Option.map_eq_some_iff.mp hstate'
    have hsame : ∀ i, i ∈ items ↔ i ∈ items' := by
      obtain ⟨rest, hrest⟩ := List.head?_eq_some_iff.mp hitems
      obtain ⟨rest', hrest'⟩ := List.head?_eq_some_iff.mp hitems'
      rw [hrest, hrest', List.forall₂_cons] at hstates
      exact hstates.1
    obtain ⟨i, hi, hsecond⟩ := List.mem_map.mp (show 2 ∈ items'.map Item.production by
      rw [hproductions']
      decide)
    have hmem := List.mem_map_of_mem (f := Item.production) ((hsame i).mpr hi)
    rw [hproductions, hsecond] at hmem
    exact absurd hmem (by decide)
  · unfold Automaton.goto at hgoto hgoto'
    rw [heq, hgoto] at hgoto'
    cases hgoto'

end ShiftReduce
