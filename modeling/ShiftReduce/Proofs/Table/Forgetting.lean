/-
Notes that were taken out of a grammar.

The automaton and the table look up in the grammar which class a symbol is of and which number a
rule has. As long as nobody takes a note out of the grammar they find what they look for. A note
that is gone is a failure if it is needed, and the failure names the item that needs it first; a
note that is not needed can go without a trace.

* `Grammar.ruleNumber?_forgetRule`, `Grammar.symbols_forgetSymbol` — what is left in the grammar;
* `Automaton.expand_forgetSymbol`, `Automaton.expandFrom_forgetSymbol` — the transitions of a state,
  and of all states, without the note of a symbol;
* `Automaton.build_forgetSymbol` — the automaton without the note of a terminal;
* `Board.build_forgetRule`, `Table.ofSets_forgetRule` — the table without the note of a rule.
-/
import ShiftReduce.Proofs.Automaton.Coincidence
import ShiftReduce.Proofs.Table.Cells

namespace ShiftReduce

variable {g : Grammar} {m m' : Automaton} {n : Nat} {items : List Item} {s : Symbol} {r : Rule}

/-! ### The grammar -/

theorem Grammar.ruleNumber?_forgetRule (g : Grammar) (r r' : Rule) :
    (g.forgetRule r).1.ruleNumber? r' = if r' = r then none else g.ruleNumber? r' :=
  Assoc.find?_erase g.byRule r r'

theorem Grammar.symbols_forgetSymbol (g : Grammar) (s : Symbol) :
    (g.forgetSymbol s).1.symbols = g.symbols.filter (· ≠ s) := by
  show (g.terminals.erase s).keys ++ (g.nonterminals.erase s).keys = _
  rw [Assoc.keys_erase, Assoc.keys_erase, ← List.filter_append, symbols]

/-! ### The automaton -/

namespace Automaton

/-- The first item with the dot before a symbol. -/
def waitingFor (s : Symbol) (items : List Item) : Option Item :=
  items.find? fun i => i.next? = some s

/-- A value that is there unless an item waits for a symbol without a class, and the failure that
names this item if one does. -/
def unlessWaiting {α : Type} (s : Symbol) (waiting : Option Item) (x : α) : Except Fault α :=
  match waiting with
  | none => .ok x
  | some i => .error (.unclassified s i.rule i.dot)

/-- The symbols behind the dots, once one of them is in no class any more. -/
theorem pendingSymbols_forgetSymbol {pending : List Symbol}
    (h : pendingSymbols g items = .ok pending) (s : Symbol) :
    pendingSymbols (g.forgetSymbol s).1 items = unlessWaiting s (waitingFor s items) pending := by
  have hclass : ∀ x, x ∈ (g.forgetSymbol s).1.terminals ∨ x ∈ (g.forgetSymbol s).1.nonterminals ↔
      (x ∈ g.terminals ∨ x ∈ g.nonterminals) ∧ x ≠ s := by
    intro x
    show x ∈ g.terminals.erase s ∨ x ∈ g.nonterminals.erase s ↔ _
    rw [Assoc.mem_erase, Assoc.mem_erase, or_and_right]
  induction items generalizing pending with
  | nil => exact h
  | cons i items ih =>
    rw [pendingSymbols] at h ⊢
    rw [waitingFor, List.find?_cons]
    cases hnext : i.next? with
    | none =>
      rw [hnext] at h
      exact ih h
    | some x =>
      rw [hnext] at h
      dsimp only at h ⊢
      split at h
      · next hx =>
        obtain ⟨rest, hrest, rfl⟩ := map_eq_ok_iff.mp h
        by_cases hs : x = s
        · have hgone := mt (hclass x).mp fun hin => hin.2 hs
          rw [if_neg hgone, hs, decide_eq_true rfl]
          rfl
        · have hskip : decide (some x = some s) = false := by simpa using hs
          rw [if_pos ((hclass x).mpr ⟨hx, hs⟩), ih hrest, hskip]
          show _ <$> _ = unlessWaiting s (waitingFor s items) (x :: rest)
          cases waitingFor s items <;> rfl
      · cases h

/-- A state whose items have the dot before a symbol gets no transitions without the note of the
symbol, and every other state gets those that it had. -/
theorem expand_forgetSymbol (h : expand g m n items = .ok m') (s : Symbol) :
    expand (g.forgetSymbol s).1 m n items = unlessWaiting s (waitingFor s items) m' := by
  obtain ⟨pending, hpending, hrest⟩ := bind_eq_ok_iff.mp h
  rw [expand, pendingSymbols_forgetSymbol hpending]
  cases hwaiting : waitingFor s items with
  | some i => rfl
  | none =>
    have hout : s ∉ pending := by
      obtain ⟨_, hpending', hmem⟩ := pendingSymbols_ok (mem_symbols_of_pendingSymbols hpending)
      obtain rfl := Except.ok.inj (hpending.symm.trans hpending')
      rw [hmem]
      rintro ⟨i, hi, hnext⟩
      exact List.find?_eq_none.mp hwaiting i hi (decide_eq_true hnext)
    have hsymbols : (g.forgetSymbol s).1.symbols.filter (· ∈ pending) =
        g.symbols.filter (· ∈ pending) := by
      rw [Grammar.symbols_forgetSymbol, List.filter_filter]
      refine List.filter_congr fun x _ => ?_
      by_cases hx : x = s
      · simp [hx, hout]
      · simp [hx]
    show ((g.forgetSymbol s).1.symbols.filter (· ∈ pending)).foldlM _ m = _
    rw [hsymbols]
    exact hrest

theorem states_prefix_of_expandOn (h : m.expandOn n items s = .ok m') : m.states <+: m'.states := by
  have hkept : ∀ {m₁ : Automaton} {t : Transition}, m₁.addTransition t = .ok m' →
      m'.states = m₁.states := by
    intro m₁ t hadd
    unfold addTransition at hadd
    split at hadd
    · cases hadd
    · obtain rfl := Except.ok.inj hadd
      rfl
  obtain ⟨kernel, _, h⟩ := bind_eq_ok_iff.mp h
  dsimp only at h
  split at h
  · rw [hkept h]
  · rw [hkept h]
    exact List.prefix_append _ _

theorem states_prefix_of_foldlM {symbols : List Symbol}
    (h : symbols.foldlM (fun m s => m.expandOn n items s) m = .ok m') :
    m.states <+: m'.states := by
  induction symbols generalizing m with
  | nil =>
    obtain rfl := Except.ok.inj h
    exact List.prefix_refl _
  | cons s symbols ih =>
    rw [List.foldlM_cons] at h
    obtain ⟨m₁, hfirst, hrest⟩ := bind_eq_ok_iff.mp h
    exact (states_prefix_of_expandOn hfirst).trans (ih hrest)

/-- States that were found stay in their places. -/
theorem states_prefix_of_expandFrom {steps : Nat} (h : expandFrom g steps n m = .ok m') :
    m.states <+: m'.states := by
  induction steps generalizing n m with
  | zero =>
    obtain rfl := Except.ok.inj h
    exact List.prefix_refl _
  | succ steps ih =>
    rw [expandFrom] at h
    split at h
    · obtain rfl := Except.ok.inj h
      exact List.prefix_refl _
    · obtain ⟨m₁, hfirst, hrest⟩ := bind_eq_ok_iff.mp h
      obtain ⟨_, _, hfold⟩ := bind_eq_ok_iff.mp hfirst
      exact (states_prefix_of_foldlM hfold).trans (ih hrest)

/-- The states from number `n` on get their transitions up to the first that waits for the symbol
without a note. -/
theorem expandFrom_forgetSymbol {steps : Nat} (h : expandFrom g steps n m = .ok m') (s : Symbol) :
    expandFrom (g.forgetSymbol s).1 steps n m =
      unlessWaiting s (((m'.states.drop n).take steps).findSome? (waitingFor s)) m' := by
  induction steps generalizing n m with
  | zero =>
    obtain rfl := Except.ok.inj h
    rw [List.take_zero]
    rfl
  | succ steps ih =>
    have hprefix := states_prefix_of_expandFrom h
    rw [expandFrom] at h ⊢
    cases hn : m.states[n]? with
    | none =>
      rw [hn] at h
      obtain rfl := Except.ok.inj h
      rw [List.drop_eq_nil_of_le (List.getElem?_eq_none_iff.mp hn)]
      rfl
    | some items =>
      rw [hn] at h
      obtain ⟨m₁, hfirst, hrest⟩ := bind_eq_ok_iff.mp h
      obtain ⟨hlt, hitems⟩ := List.getElem?_eq_some_iff.mp (getElem?_of_isPrefix hprefix hn)
      have hstates : (m'.states.drop n).take (steps + 1) =
          items :: (m'.states.drop (n + 1)).take steps := by
        rw [List.drop_eq_getElem_cons hlt, hitems, List.take_succ_cons]
      rw [hstates, List.findSome?_cons]
      dsimp only
      rw [expand_forgetSymbol hfirst]
      cases waitingFor s items with
      | some i => rfl
      | none => exact ih hrest

/-- The automaton is not built without the note of a terminal if one of its states has the dot
before the terminal, and the failure names the first such item. Otherwise it is what it was. -/
theorem build_forgetSymbol {a : Augmented} {full : Bool} (hg : g.Consistent)
    (ha : Augmented.ofGrammar g = .ok a) (h : build g a full = .ok m) (hs : s ∉ g.nonterminals) :
    build (g.forgetSymbol s).1 a full =
      unlessWaiting s (m.states.findSome? (waitingFor s)) m := by
  -- The closures are those of the non-terminals, which are all there.
  have hkept : (g.forgetSymbol s).1 = { g with terminals := g.terminals.erase s } := by
    show { g with terminals := _, nonterminals := g.nonterminals.erase s } = _
    rw [Assoc.erase_of_not_mem hs]
  have hinitial : initial (g.forgetSymbol s).1 a full = initial g a full := by
    rw [hkept]
    rfl
  obtain ⟨_, hbuild, hbuilt⟩ := build_ok hg ha full
  obtain rfl := Except.ok.inj (h.symm.trans hbuild)
  have hall : (m.states.drop 0).take (Nat.pow 2 (itemCount a)) = m.states :=
    List.take_of_length_le (hbuilt.length_states_le hbuilt.reached)
  rw [build_eq] at h ⊢
  rw [hinitial, expandFrom_forgetSymbol h, hall]

/-- Whether a state has an item at which a rule is complete, other than the start production. -/
def Completes (m : Automaton) (r : Rule) : Prop :=
  ∃ p ∈ numberedItems m, p.2.isComplete ∧ p.2.production ≠ 0 ∧ p.2.rule = r

instance (m : Automaton) (r : Rule) : Decidable (m.Completes r) :=
  inferInstanceAs (Decidable (∃ p ∈ numberedItems m, _))

end Automaton

/-! ### The table -/

theorem reductionsBy_forgetRule (g : Grammar) (r : Rule) (n : Nat) (i : Item) :
    reductionsBy (g.forgetRule r).1 n i =
      if i.isComplete ∧ i.production ≠ 0 ∧ i.rule = r then
        .error (.unmatchedItem r r.rhs.length)
      else reductionsBy g n i := by
  unfold reductionsBy
  rw [Grammar.ruleNumber?_forgetRule]
  by_cases hreduces : i.isComplete ∧ i.production ≠ 0
  · by_cases hr : i.rule = r
    · have hdot : i.dot = r.rhs.length := hr ▸ of_decide_eq_true hreduces.1
      simp [hreduces, hr, hdot]
    · have hno : ¬(i.isComplete ∧ i.production ≠ 0 ∧ i.rule = r) := fun h => hr h.2.2
      rw [if_pos hreduces, if_neg hr, if_neg hno, if_pos hreduces]
      rfl
  · have hno : ¬(i.isComplete ∧ i.production ≠ 0 ∧ i.rule = r) := fun h => hreduces ⟨h.1, h.2.1⟩
    rw [if_neg hreduces, if_neg hno, if_neg hreduces]

/-- The reductions fail at the first item at which the rule is complete, and if there is none they
are what they were. -/
theorem reductions_forgetRule {rs : List (Nat × Symbol × Nat)} (h : reductions g m = .ok rs)
    (r : Rule) : reductions (g.forgetRule r).1 m =
      if m.Completes r then .error (.unmatchedItem r r.rhs.length) else .ok rs := by
  obtain ⟨found, hfound, h⟩ := bind_eq_ok_iff.mp h
  obtain rfl := Except.ok.inj h
  have hall : (numberedItems m).mapM (fun p => reductionsBy (g.forgetRule r).1 p.1 p.2) =
      if m.Completes r then .error (.unmatchedItem r r.rhs.length) else .ok found := by
    simp only [reductionsBy_forgetRule]
    exact mapM_ite_error hfound
  show (numberedItems m).mapM (fun p => reductionsBy (g.forgetRule r).1 p.1 p.2) >>=
    (fun found => .ok found.flatten) = _
  rw [hall]
  split <;> rfl

/-- The rows of a table are not written if a rule without a note is complete in some state, and the
failure names the rule. Otherwise they are what they were. -/
theorem Board.build_forgetRule {b : Board} (h : Board.build g m = .ok b) (r : Rule) :
    Board.build (g.forgetRule r).1 m =
      if m.Completes r then .error (.unmatchedItem r r.rhs.length) else .ok b := by
  obtain ⟨moves, hmoves, h⟩ := bind_eq_ok_iff.mp h
  obtain ⟨rs, hrs, h⟩ := bind_eq_ok_iff.mp h
  have hmoves' : m.transitions.foldlM (Board.placeTransition (g.forgetRule r).1)
      (Board.blank m.states.length) = .ok moves := hmoves
  rw [Board.build, hmoves', ← Except.ok.inj h]
  show reductions (g.forgetRule r).1 m >>=
    (fun rs => .ok (rs.foldl Board.placeReduction (moves.placeAccept m.finalState))) = _
  rw [reductions_forgetRule hrs]
  split <;> rfl

/-- So it is with the whole table, as its words need no number of a rule. -/
theorem Table.ofSets_forgetRule {t : Table} (h : Table.ofSets g m = .ok t) (r : Rule) :
    Table.ofSets (g.forgetRule r).1 m =
      if m.Completes r then .error (.unmatchedItem r r.rhs.length) else .ok t := by
  obtain ⟨b, hb, hrest⟩ := bind_eq_ok_iff.mp h
  rw [Table.ofSets, Board.build_forgetRule hb]
  split
  · rfl
  · exact hrest

end ShiftReduce
