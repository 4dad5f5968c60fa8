/-
The machine follows every derivation.

If the top state has an item with some symbols behind its dot, the input begins with what these
symbols yield, and the symbol after it can stand there, then the machine shifts and reduces along
the trees of the derivation and ends with these symbols on top of the stack.

* `Tabulated.reduce_complete` — the reduction by one production, once its right side is there;
* `Tabulated.follows` — all shifts and reductions of a row of trees, in their order;
* `Tabulated.accepts_of_yields` — what the start symbol yields is accepted.
-/
import ShiftReduce.Proofs.Grammar.Yield
import ShiftReduce.Proofs.Simulation.Stacks

namespace ShiftReduce

open ShiftReduce.Configuration (topState)

/-- The first symbol of a list that goes on with another. -/
theorem exists_append_eq_headD {α : Type} (u : List α) (s : α) (rest : List α) :
    ∃ rest', u ++ s :: rest = u.headD s :: rest' := by
  cases u with
  | nil => exact ⟨rest, rfl⟩
  | cons x u => exact ⟨u ++ s :: rest, rfl⟩

namespace Tabulated

variable {g : Grammar} {a : Augmented} {full : Bool} {m : Automaton} {t : Table}
  {stack : List (Symbol × Nat)} {i : Item} {s : Symbol} {xs ys : List Symbol}

theorem followsName_iff (h : Tabulated g a full m t) {p : Production} (hp : p ∈ g.productions) :
    g.FollowsName a p.name s ↔ g.follow.Has p.name s := by
  have hname := h.consistent.name_isNonterminal p hp
  have hne : p.name ≠ a.start := by
    intro heq
    rw [heq, a.start_isNonterminal] at hname
    cases hname
  rw [Grammar.FollowsName, if_neg hne]

/-- What a row yields, or the symbol after it, can stand at the end of a right side if the row
ends it. -/
theorem canFollow_of_yields (h : Tabulated g a full m t) {ns : List Nat} {u : List Symbol}
    {name : Symbol} (hy : g.Yields xs ns u) (hys : ∀ y ∈ ys, g.Occurs y)
    (hs : g.CanFollow a name ys s) : g.CanFollow a name (xs ++ ys) (u.headD s) :=
  h.first.canFollow_append (fun _ hx => (h.readable.isReadable h.consistent hx).ne_empty) hy hys hs

/-- What begins what the symbols behind a dot yield, or else what follows the name, can follow. -/
theorem canFollow_headD (h : Tabulated g a full m t) {ns : List Nat} {u : List Symbol}
    {name : Symbol} (hy : g.Yields xs ns u) (hs : g.FollowsName a name s) :
    g.CanFollow a name xs (u.headD s) := by
  have hnone : ∀ y ∈ ([] : List Symbol), g.Occurs y := fun _ hx => absurd hx List.not_mem_nil
  have hfollows := h.canFollow_of_yields hy hnone (Grammar.canFollow_nil hs)
  rw [List.append_nil] at hfollows
  exact hfollows

/-- Behind a name that stands behind a dot, what can stand there is in the name's follow set. -/
theorem has_follow (h : Tabulated g a full m t) (hi : a.Valid i) {p : Production}
    (hp : p ∈ g.productions) (hrest : i.rule.rhs.drop i.dot = p.name :: xs)
    (hs : g.CanFollow a i.rule.name xs s) : g.follow.Has p.name s := by
  have hrhs : i.rule.rhs = i.rule.rhs.take i.dot ++ p.name :: xs := by
    rw [← hrest, List.take_append_drop]
  exact h.follow.has_of_canFollow h.consistent h.augmented (List.mem_of_getElem? hi.rule_eq) hrhs
    (h.consistent.name_mem_nonterminals hp) hs

/-- Without conflicts a production whose item reduces has the number that the table names: it can
be no other production, not even one with the same rule. -/
theorem ruleNumber?_of_reduces (h : Tabulated g a full m t) (hfree : t.hasConflict = false)
    (hstack : m.OnPath stack) {n : Nat} {p : Production} (hp : p ∈ g.productions)
    (hcomplete : ⟨n + 1, p.rhs.length, p.toRule⟩ ∈ (itemNfa g a full).eval (wordOf stack))
    (hs : g.follow.Has p.name s) : g.ruleNumber? p.toRule = some n := by
  obtain ⟨r, hr⟩ := h.consistent.exists_ruleNumber? hp
  obtain ⟨q, hq, hrule⟩ := h.consistent.exists_of_ruleNumber? hr
  obtain ⟨items, hitems, hmem⟩ := hstack.mem_iff h.built.toCoherent
  -- The production that the table names has the same rule, so its item is in the state as well.
  have hvalid : a.Valid ⟨r + 1, p.rhs.length, p.toRule⟩ :=
    ⟨hrule ▸ (Augmented.mem_leadingItems_iff.mp
      (Augmented.leading_mem_leadingItems h.augmented hq)).1, Nat.le_refl _⟩
  have hother := mem_eval_of_rule_eq h.consistent hcomplete
    (h.consistent.name_mem_nonterminals hp) hvalid rfl rfl
  have heq := h.eq_of_reduces hfree hitems ((hmem _).mpr hother) ((hmem _).mpr hcomplete)
    (i := ⟨r + 1, p.rhs.length, p.toRule⟩) ⟨decide_eq_true rfl, Nat.succ_ne_zero r, hs⟩
    ⟨decide_eq_true rfl, Nat.succ_ne_zero n, hs⟩
  obtain rfl : r = n := Nat.succ.inj (congrArg Item.production heq)
  exact hr

theorem reduce_complete (h : Tabulated g a full m t) (hfree : t.hasConflict = false)
    {stack' : List (Symbol × Nat)} {n k : Nat} {p : Production}
    (hstack : m.OnPath stack) (hstack' : m.OnPath stack')
    (hword : wordOf stack' = wordOf stack ++ p.rhs) (hn : g.productions[n]? = some p)
    (hi : ⟨n + 1, 0, p.toRule⟩ ∈ (itemNfa g a full).eval (wordOf stack))
    (hgoto : m.goto (topState stack) p.name = some k) (hs : g.follow.Has p.name s)
    (rest : List Symbol) :
    Takes g t ⟨stack', s :: rest⟩ (.reduce n p.toRule) ⟨(p.name, k) :: stack, s :: rest⟩ := by
  have hp := List.mem_of_getElem? hn
  have hall : p.rhs = p.rhs ++ [] := (List.append_nil p.rhs).symm
  have hread := mem_eval_read_all hi hall
  have hcomplete : (⟨n + 1, p.rhs.length, p.toRule⟩ : Item) ∈
      (itemNfa g a full).eval (wordOf stack') := by
    rw [hword]
    simpa using hread
  have hreduces : Reduces g ⟨n + 1, p.rhs.length, p.toRule⟩ s :=
    ⟨decide_eq_true rfl, Nat.succ_ne_zero n, hs⟩
  have hnumber := h.ruleNumber?_of_reduces hfree hstack' hp hcomplete hs
  have hbelow : stack'.drop p.rhs.length = stack :=
    (hstack'.drop _).eq_of_wordOf_eq hstack (wordOf_drop hword)
  have htakes :=
    h.takes_reduce hfree hstack' hcomplete hreduces hnumber (hbelow.symm ▸ hgoto) rest
  rw [hbelow] at htakes
  exact htakes

/-- The machine shifts and reduces along the trees of a derivation, with one step for each leaf and
each inner node. -/
theorem follows (h : Tabulated g a full m t) (hfree : t.hasConflict = false) {ns : List Nat}
    {u : List Symbol} (hy : g.Yields xs ns u) (hstack : m.OnPath stack)
    (hi : i ∈ (itemNfa g a full).eval (wordOf stack)) (hrest : i.rule.rhs.drop i.dot = xs ++ ys)
    (hs : g.CanFollow a i.rule.name ys s) (rest : List Symbol) :
    ∃ stack' moves, m.OnPath stack' ∧ wordOf stack' = wordOf stack ++ xs ∧
      Runs g t moves ⟨stack, u ++ s :: rest⟩ ⟨stack', s :: rest⟩ ∧ reductionsOf moves = ns ∧
      moves.length = ns.length + u.length := by
  induction hy generalizing stack i ys s rest with
  | nil => exact ⟨stack, [], hstack, (List.append_nil _).symm, .refl _, rfl, rfl⟩
  | @leaf x xs ns w hx hy ih =>
    have hnext : i.next? = some x := Item.next?_of_drop hrest
    obtain ⟨k, hgoto, hpush, hmoved⟩ := hstack.exists_push h.built hi hnext
    rw [Item.drop_of_next? hnext, List.cons_append] at hrest
    obtain ⟨stack', moves, hstack', hword, hruns, hreductions, hlength⟩ :=
      ih hpush hmoved (List.cons.inj hrest).2 hs rest
    refine ⟨stack', .shift k :: moves, hstack', ?_, ?_, hreductions, ?_⟩
    · rw [hword, wordOf_cons, List.append_assoc]
      rfl
    · exact .step (h.takes_shift hfree hstack hgoto hx _) hruns
    · rw [List.length_cons, hlength, List.length_cons]
      omega
  | @node n p xs ns ms u w hn hyu hyw ihu ihw =>
    have hp := List.mem_of_getElem? hn
    have hnext : i.next? = some p.name := Item.next?_of_drop hrest
    obtain ⟨k, hgoto, hpush, hmoved⟩ := hstack.exists_push h.built hi hnext
    have hvalid := valid_of_mem_eval hi
    -- The symbol that comes next when the right side has been read.
    obtain ⟨rest', hrest'⟩ := exists_append_eq_headD w s rest
    have hfollow : g.follow.Has p.name (w.headD s) := by
      refine h.has_follow hvalid hp hrest ?_
      show g.CanFollow a i.rule.name (xs ++ ys) (w.headD s)
      refine h.canFollow_of_yields hyw (fun y hy => ?_) hs
      have hmem : y ∈ i.rule.rhs.drop i.dot := hrest ▸ List.mem_append_right _ hy
      exact hvalid.occurs_of_mem_rhs h.consistent h.augmented (List.mem_of_mem_drop hmem)
    -- First the subtrees of the node, then the node itself, and then the trees behind it.
    have hopen : ⟨n + 1, 0, p.toRule⟩ ∈ (itemNfa g a full).eval (wordOf stack) :=
      mem_eval_open hi (h.consistent.name_mem_nonterminals hp) hnext
        (Augmented.leading_mem_leadingItems h.augmented hn) rfl
    have hall : p.rhs = p.rhs ++ [] := (List.append_nil p.rhs).symm
    obtain ⟨stack₁, moves₁, hstack₁, hword₁, hruns₁, hreductions₁, hlength₁⟩ :=
      ihu hstack hopen hall
        (Grammar.canFollow_nil ((h.followsName_iff hp).mpr hfollow)) rest'
    have htakes := h.reduce_complete hfree hstack hstack₁ hword₁ hn hopen hgoto hfollow rest'
    rw [Item.drop_of_next? hnext, List.cons_append] at hrest
    obtain ⟨stack₂, moves₂, hstack₂, hword₂, hruns₂, hreductions₂, hlength₂⟩ :=
      ihw hpush hmoved (List.cons.inj hrest).2 hs rest
    rw [hrest'] at hruns₂
    refine ⟨stack₂, moves₁ ++ .reduce n p.toRule :: moves₂, hstack₂, ?_, ?_, ?_, ?_⟩
    · rw [hword₂, wordOf_cons, List.append_assoc]
      rfl
    · rw [List.append_assoc, hrest']
      exact hruns₁.trans (.step htakes hruns₂)
    · rw [reductionsOf_append, hreductions₁, ← hreductions₂]
      rfl
    · simp only [List.length_append, List.length_cons, hlength₁, hlength₂]
      omega

theorem accepts_of_yields (h : Tabulated g a full m t) (hfree : t.hasConflict = false)
    {ns : List Nat} {w : List Symbol} (hy : g.Yields [a.goal] ns w) :
    ∃ c moves, Runs g t moves (startOn w) c ∧ reductionsOf moves = ns ∧
      moves.length = ns.length + w.length ∧ m.OnPath c.stack ∧ wordOf c.stack = [a.goal] ∧
      c.input = [Symbol.endMark] ∧ c.move g t = .ok .accept := by
  have hfollows : g.CanFollow a a.start [] Symbol.endMark := by
    refine Grammar.canFollow_nil ?_
    rw [Grammar.FollowsName, if_pos rfl]
  obtain ⟨stack, moves, hstack, hword, hruns, hreductions, hlength⟩ :=
    h.follows hfree hy .nil (mem_eval_of_mem_start startItem_mem_start) rfl hfollows []
  refine ⟨⟨stack, [Symbol.endMark]⟩, moves, hruns, hreductions, hlength, hstack, hword, rfl, ?_⟩
  -- The only state behind the start symbol is the final one.
  obtain ⟨f, hfinal, _, honly⟩ := h.built.finalState_eq h.consistent
  obtain ⟨items, hitems, hmem⟩ := hstack.mem_iff h.built.toCoherent
  have haccept : a.acceptItem ∈ items := by
    rw [hmem, hword]
    exact acceptItem_mem_eval
  have htop : topState stack = f := (honly _ items hitems).mp haccept
  exact h.move_accept hfree hstack (htop ▸ hfinal) []

end Tabulated

end ShiftReduce
